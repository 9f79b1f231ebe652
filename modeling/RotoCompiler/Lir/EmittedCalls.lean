import RotoCompiler.Lir.CallSites

/-!
# The calls that lowering emits

Computation by computation, from the offsets of fields to the arguments of registered functions.
-/

namespace Roto.Lir
open Mir

variable {S : Site} {α : Type} {pre : Lowerer → Prop} {post : α → Lowerer → Prop} {rt : Rt}

abbrev IsPointer (S : Site) (v : Var) (s : Lowerer) : Prop :=
  s.type S (.place v) = some .pointer

/-! ### Offsets, reads and moves -/

theorem calls_offset {base : Var} {off : ℕ} (hpre : Persistent pre)
    (hbase : off = 0 → ∀ s, pre s → IsPointer S base s) :
    Calls S pre (offset base off) fun v s => IsPointer S v s := by
  unfold offset
  split_ifs with hoff
  · exact .pure (hbase hoff)
  · refine .bind hpre (calls_newTmp .pointer) fun new => ?_
    refine .seq (hpre.and (persistent_type _ _ _)) (calls_emit fun _ _ => trivial) fun _ => ?_
    exact .pure fun s h => h.2

theorem calls_readTmp (ptr : Var) (irTy : IrType) :
    Calls S pre (readTmp ptr irTy) fun op s => s.type S op = some irTy := by
  refine Calls.always ?_
  unfold readTmp
  refine .bind persistent_true (calls_newTmp irTy) fun dest => ?_
  refine .seq (persistent_true.and (persistent_type _ _ _)) (calls_emit fun _ _ => trivial) fun _ => ?_
  exact .pure fun s h => h.2

/-- An offset that no call depends on. -/
theorem calls_offset_any (base : Var) (off : ℕ) : Calls S pre (offset base off) Any := by
  refine Calls.always ?_
  unfold offset
  split_ifs
  · exact .pure fun _ _ => trivial
  · refine .seq persistent_true ((calls_newTmp .pointer).imp (fun _ h => h) fun _ _ _ => trivial)
      fun new => ?_
    exact .seq persistent_true (calls_emit fun _ _ => trivial) fun _ => .pure fun _ _ => trivial

theorem calls_moveVal (dest : Location) (val : Operand) (ty : Ty) :
    Calls S pre (moveVal rt dest val ty) Any := by
  refine Calls.always ?_
  unfold moveVal
  split
  · exact .pure fun _ _ => trivial
  · split
    · exact calls_emit fun _ _ => trivial
    · refine .seq persistent_true (calls_offset_any _ _) fun dest => ?_
      split
      · exact .seq persistent_true (.unwrap fun _ _ _ _ => trivial) fun l =>
          calls_emit fun _ _ => trivial
      · exact calls_emit fun _ _ => trivial
      · exact .pure fun _ _ => trivial

theorem calls_emitNot (negated : Bool) (dest : Var) : Calls S pre (emitNot negated dest) Any := by
  unfold emitNot
  split_ifs
  · exact calls_emit fun _ _ => trivial
  · exact .pure fun _ _ => trivial

/-! ### Clones -/

/-- A function is generated for the clones of the values of a type. -/
def generatesClone (rt : Rt) (ty : Ty) : Bool := needsClone rt ty && (getRuntimeClone rt ty).isNone

def Location.isPointer : Location → Bool
  | .var _ => false
  | .pointer _ _ => true

/-- A location in memory is behind a pointer, if it is used without an offset. -/
def Location.Known (S : Site) (l : Location) (s : Lowerer) : Prop :=
  match l with
  | .var _ => True
  | .pointer base off => asU32 off = 0 → IsPointer S base s

theorem calls_callCloneFunction {src dest : Var} {ty : Ty} (hpre : Persistent pre)
    (hgenerated : S.generated (.generatedClone ty))
    (hsrc : generatesClone rt ty → ∀ s, pre s → IsPointer S src s)
    (hdest : generatesClone rt ty → ∀ s, pre s → IsPointer S dest s) :
    Calls S pre (callCloneFunction rt src dest ty) Any := by
  unfold callCloneFunction
  split_ifs with hneeds
  · exact .seq hpre (.unwrap fun _ _ _ _ => trivial) fun l => calls_emit fun _ _ => trivial
  · split
    · exact calls_emit fun _ _ => trivial
    · next hclone =>
      have hgenerates : generatesClone rt ty := by simp_all [generatesClone]
      refine calls_request (.generatedClone ty) fun s hs => ?_
      refine ⟨hgenerated, request_queued (.generatedClone ty) (by simp [generatedSignature])
        s, _, rfl, ?_⟩
      exact ⟨congrArg (fun t => [t]) (hsrc hgenerates s hs), rfl,
        congrArg some (hdest hgenerates s hs), rfl⟩

theorem calls_callCloneOf {dest src : Location} {ty : Ty} (hpre : Persistent pre)
    (hgenerated : S.generated (.generatedClone ty))
    (hdest : src.isPointer → generatesClone rt ty → ∀ s, pre s → dest.Known S s)
    (hsrc : dest.isPointer → generatesClone rt ty → ∀ s, pre s → src.Known S s) :
    Calls S pre (callCloneOf rt dest src ty) Any := by
  unfold callCloneOf
  cases dest with
  | var dest =>
    cases src with
    | var src =>
      dsimp only
      split
      · exact .pure fun _ _ => trivial
      · exact calls_emit fun _ _ => trivial
    | pointer base off =>
      dsimp only
      split
      · exact .pure fun _ _ => trivial
      · exact .seq hpre (calls_offset_any _ _) fun src => calls_emit fun _ _ => trivial
  | pointer baseTo offTo =>
    cases src with
    | var src =>
      dsimp only
      split
      · exact .pure fun _ _ => trivial
      · exact .seq hpre (calls_offset_any _ _) fun src => calls_emit fun _ _ => trivial
    | pointer baseFrom offFrom =>
      by_cases hgenerates : generatesClone rt ty
      · refine .bind hpre (calls_offset hpre fun h0 s h => hsrc rfl hgenerates s h h0) fun src => ?_
        have hpre₁ := hpre.and (persistent_type S (.place src) .pointer)
        refine .bind hpre₁ (calls_offset hpre₁ fun h0 s h => hdest rfl hgenerates s h.1 h0)
          fun dest => ?_
        exact calls_callCloneFunction (hpre₁.and (persistent_type _ _ _)) hgenerated
          (fun _ s h => h.1.2) fun _ s h => h.2
      · refine .seq hpre (calls_offset_any _ _) fun src => ?_
        refine .seq hpre (calls_offset_any _ _) fun dest => ?_
        exact calls_callCloneFunction hpre hgenerated (fun h => absurd h hgenerates)
          fun h => absurd h hgenerates

theorem calls_cloneFields {returnVar rootVar : Var} {fields : List (ℕ × Ty)}
    (hpre : Persistent pre) (hgenerated : ∀ ty, S.generated (.generatedClone ty))
    (hreturn : ∀ s, pre s → IsPointer S returnVar s) (hroot : ∀ s, pre s → IsPointer S rootVar s) :
    Calls S pre (cloneFields rt returnVar rootVar fields) Any := by
  induction fields with
  | nil => exact .pure fun _ _ => trivial
  | cons field fields ih =>
    refine .seq hpre (calls_callCloneOf hpre (hgenerated _) ?_ ?_) fun _ => ih
    · exact fun _ _ s hs _ => hreturn s hs
    · exact fun _ _ s hs _ => hroot s hs

theorem calls_cloneVariants {returnVar rootVar : Var} {lbls : List LabelRef}
    {variants : List (Identifier × List Ty)} (hpre : Persistent pre)
    (hgenerated : ∀ ty, S.generated (.generatedClone ty))
    (hreturn : ∀ s, pre s → IsPointer S returnVar s) (hroot : ∀ s, pre s → IsPointer S rootVar s) :
    Calls S pre (cloneVariants rt returnVar rootVar lbls variants) Any := by
  induction lbls, variants using cloneVariants.induct with
  | case1 lbl lbls ident tys variants ih =>
    unfold cloneVariants
    refine .seq hpre (calls_newBlock lbl) fun _ => ?_
    refine .seq hpre (calls_cloneFields hpre hgenerated hreturn hroot) fun _ => ?_
    exact .seq hpre (calls_emit fun _ _ => trivial) fun _ => ih
  | case2 lbls variants hne =>
    rw [cloneVariants]
    · exact .pure fun _ _ => trivial
    · exact hne

theorem calls_switchVariants (discriminant : Operand) (lbls : List LabelRef) :
    Calls S pre (switchVariants discriminant lbls) Any := by
  refine Calls.always ?_
  exact .seq persistent_true (.unwrap fun _ _ _ _ => trivial) fun default =>
    calls_emit fun _ _ => trivial

theorem calls_generateCloneBody {ty : Ty} {scope : ScopeRef} (hpre : Persistent pre)
    (hgenerated : ∀ ty, S.generated (.generatedClone ty))
    (hroot : ∀ s, pre s → IsPointer S ⟨scope, .explicit "val"⟩ s) :
    Calls S pre (generateCloneBody rt ty scope) Any := by
  have hreturn : ∀ s, pre s → IsPointer S ⟨scope, .ret⟩ s := fun s _ => rfl
  unfold generateCloneBody
  split
  · exact .seq hpre (calls_emit fun _ _ => trivial) fun _ => calls_emit fun _ _ => trivial
  · split
    · exact calls_emit fun _ _ => trivial
    · exact calls_emit fun _ _ => trivial
    · exact calls_emit fun _ _ => trivial
    · exact .seq hpre (calls_cloneFields hpre hgenerated hreturn hroot) fun _ =>
        calls_emit fun _ _ => trivial
    · refine .seq hpre calls_wrapInternal fun _ => ?_
      refine .seq hpre (calls_wrapInternals _).always fun lbls => ?_
      refine .seq hpre (calls_offset_any _ _) fun offsetVar => ?_
      refine .bind hpre (calls_readTmp offsetVar .u8) fun discriminant => ?_
      have hpre₁ := hpre.and (persistent_type S discriminant .u8)
      refine .seq hpre₁ (calls_emit fun _ _ => trivial) fun _ => ?_
      refine .seq hpre₁ (calls_switchVariants _ _) fun _ => ?_
      exact calls_cloneVariants hpre₁ hgenerated (fun s h => hreturn s h.1) fun s h => hroot s h.1
    · exact .seq hpre (.unwrap fun _ _ _ _ => trivial) fun l =>
        .seq hpre (calls_emit fun _ _ => trivial) fun _ => calls_emit fun _ _ => trivial
    · exact .unwrap fun _ _ _ _ => trivial

/-! ### Drops -/

/-- A function is generated for the drops of the values of a type. -/
def generatesDrop (rt : Rt) (ty : Ty) : Bool := needsDrop rt ty && (getRuntimeDrop rt ty).isNone

theorem calls_callDropOf {op : Operand} {ty : Ty} (hgenerated : S.generated (.generatedDrop ty))
    (hop : generatesDrop rt ty → ∀ s, pre s → s.type S op = some .pointer) :
    Calls S pre (callDropOf rt op ty) Any := by
  unfold callDropOf
  split_ifs with hneeds
  · exact .pure fun _ _ => trivial
  · split
    · exact calls_emit fun _ _ => trivial
    · next hdrop =>
      have hgenerates : generatesDrop rt ty := by simp_all [generatesDrop]
      refine calls_request (.generatedDrop ty) fun s hs => ?_
      refine ⟨hgenerated, request_queued (.generatedDrop ty) (by simp [generatedSignature])
        s, _, rfl, ?_⟩
      exact ⟨congrArg (fun t => [t]) (hop hgenerates s hs), rfl, rfl, rfl⟩

theorem calls_dropFields {rootVar : Var} {fields : List (ℕ × Ty)} (hpre : Persistent pre)
    (hgenerated : ∀ ty, S.generated (.generatedDrop ty))
    (hroot : ∀ s, pre s → IsPointer S rootVar s) :
    Calls S pre (dropFields rt rootVar fields) Any := by
  induction fields with
  | nil => exact .pure fun _ _ => trivial
  | cons field fields ih =>
    refine .bind hpre (calls_offset hpre fun _ => hroot) fun var => ?_
    refine .seq (hpre.and (persistent_type _ _ _)) (calls_callDropOf (hgenerated _) fun _ s h => h.2)
      fun _ => ?_
    exact ih.imp (fun s h => h.1) fun _ _ h => h

theorem calls_dropVariants {rootVar : Var} {lbls : List LabelRef}
    {variants : List (Identifier × List Ty)} (hpre : Persistent pre)
    (hgenerated : ∀ ty, S.generated (.generatedDrop ty))
    (hroot : ∀ s, pre s → IsPointer S rootVar s) :
    Calls S pre (dropVariants rt rootVar lbls variants) Any := by
  induction lbls, variants using dropVariants.induct with
  | case1 lbl lbls ident tys variants ih =>
    unfold dropVariants
    refine .seq hpre (calls_newBlock lbl) fun _ => ?_
    refine .seq hpre (calls_dropFields hpre hgenerated hroot) fun _ => ?_
    exact .seq hpre (calls_emit fun _ _ => trivial) fun _ => ih
  | case2 lbls variants hne =>
    rw [dropVariants]
    · exact .pure fun _ _ => trivial
    · exact hne

theorem calls_generateDropBody {ty : Ty} {scope : ScopeRef} (hpre : Persistent pre)
    (hgenerated : ∀ ty, S.generated (.generatedDrop ty))
    (hroot : ∀ s, pre s → IsPointer S ⟨scope, .explicit "val"⟩ s) :
    Calls S pre (generateDropBody rt ty scope) Any := by
  unfold generateDropBody
  split
  · exact .seq hpre (calls_emit fun _ _ => trivial) fun _ => calls_emit fun _ _ => trivial
  · split
    · exact calls_emit fun _ _ => trivial
    · exact calls_emit fun _ _ => trivial
    · exact calls_emit fun _ _ => trivial
    · exact calls_emit fun _ _ => trivial
    · exact .seq hpre (calls_dropFields hpre hgenerated hroot) fun _ =>
        calls_emit fun _ _ => trivial
    · refine .seq hpre calls_wrapInternal fun _ => ?_
      refine .seq hpre (calls_wrapInternals _).always fun lbls => ?_
      refine .seq hpre (calls_offset_any _ _) fun offsetVar => ?_
      refine .bind hpre (calls_readTmp offsetVar .u8) fun discriminant => ?_
      have hpre₁ := hpre.and (persistent_type S discriminant .u8)
      refine .seq hpre₁ (calls_switchVariants _ _) fun _ => ?_
      exact calls_dropVariants hpre₁ hgenerated fun s h => hroot s h.1
    · exact .unwrap fun _ _ _ _ => trivial

/-! ### Comparisons -/

/-- A function is generated for the comparisons of the values of a type. -/
def generatesEq (rt : Rt) (ty : Ty) : Bool :=
  lowerType rt ty = some .pointer && (getRuntimeEq rt ty).isNone

theorem generatesEq_pointer {ty : Ty} (h : generatesEq rt ty) : lowerType rt ty = some .pointer :=
  of_decide_eq_true (Bool.and_eq_true_iff.mp h).1

theorem calls_callEqOf {negated : Bool} {left right : Operand} {ty : Ty} (hpre : Persistent pre)
    (hgenerated : S.generated (.generatedEq ty))
    (hleft : generatesEq rt ty → ∀ s, pre s → s.type S left = some .pointer)
    (hright : generatesEq rt ty → ∀ s, pre s → s.type S right = some .pointer) :
    Calls S pre (callEqOf rt negated left right ty) Any := by
  have hcmp : ∀ i : Var → Instruction, (∀ dest s, Accounted S s (i dest)) →
      Calls S pre (do
        let dest ← newTmp .bool
        emit (i dest)
        return (.place dest : Operand)) Any := by
    intro i hi
    refine .bind hpre (calls_newTmp .bool) fun dest => ?_
    exact .seq (hpre.and (persistent_type _ _ _)) (calls_emit fun _ _ => hi _ _) fun _ =>
      .pure fun _ _ => trivial
  unfold callEqOf
  split
  · exact .pure fun _ _ => trivial
  · next hlower =>
    refine .bind hpre (calls_newTmp .bool) fun dest => ?_
    have hpre₁ := hpre.and (persistent_type S (.place dest) .bool)
    split
    · refine .seq hpre₁ (calls_emit fun _ _ => trivial) fun _ => ?_
      exact .seq hpre₁ (calls_emitNot _ _) fun _ => .pure fun _ _ => trivial
    · next heq =>
      have hgenerates : generatesEq rt ty := by simp [generatesEq, hlower, heq]
      refine calls_request_seq (.generatedEq ty) hpre₁ (fun s hs => ?_) fun _ =>
        .seq hpre₁ (calls_emitNot _ _) fun _ => .pure fun _ _ => trivial
      refine ⟨hgenerated, request_queued (.generatedEq ty) (by simp [generatedSignature])
        s, _, rfl, ?_⟩
      have hl : s.type S left = some .pointer := hleft hgenerates s hs.1
      have hr : s.type S right = some .pointer := hright hgenerates s hs.1
      refine ⟨?_, rfl, rfl, rfl⟩
      show [s.type S left, s.type S right] = _
      rw [hl, hr]
      rfl
  · exact hcmp _ fun _ _ => trivial
  · exact hcmp _ fun _ _ => trivial
  · exact hcmp _ fun _ _ => trivial

theorem calls_callEqByPtr {leftPtr rightPtr : Var} {ty : Ty} (hpre : Persistent pre)
    (hgenerated : S.generated (.generatedEq ty)) (hleft : ∀ s, pre s → IsPointer S leftPtr s)
    (hright : ∀ s, pre s → IsPointer S rightPtr s) :
    Calls S pre (callEqByPtr rt leftPtr rightPtr ty) Any := by
  unfold callEqByPtr
  split
  · exact .pure fun _ _ => trivial
  · exact calls_callEqOf hpre hgenerated (fun _ => hleft) fun _ => hright
  · refine .bind hpre (.unwrap fun irTy _ h _ => h) fun irTy => ?_
    have hpre₁ := hpre.and (persistent_const (p := lowerType rt ty = some irTy))
    refine .bind hpre₁ (calls_readTmp _ _) fun left => ?_
    have hpre₂ := hpre₁.and (persistent_type S left irTy)
    refine .bind hpre₂ (calls_readTmp _ _) fun right => ?_
    refine calls_callEqOf (hpre₂.and (persistent_type _ _ _)) hgenerated ?_ ?_
    · intro hgenerates s hs
      obtain ⟨⟨⟨-, hty⟩, hleft⟩, -⟩ := hs
      obtain rfl := Option.some.inj (hty.symm.trans (generatesEq_pointer hgenerates))
      exact hleft
    · intro hgenerates s hs
      obtain ⟨⟨⟨-, hty⟩, -⟩, hright⟩ := hs
      obtain rfl := Option.some.inj (hty.symm.trans (generatesEq_pointer hgenerates))
      exact hright

theorem calls_eqField {leftBase rightBase : Var} {off : ℕ} {ty : Ty} (hpre : Persistent pre)
    (hgenerated : S.generated (.generatedEq ty)) (hleft : ∀ s, pre s → IsPointer S leftBase s)
    (hright : ∀ s, pre s → IsPointer S rightBase s) :
    Calls S pre (eqField rt leftBase rightBase off ty) Any := by
  refine .bind hpre (calls_offset hpre fun _ => hleft) fun left => ?_
  have hpre₁ := hpre.and (persistent_type S (.place left) .pointer)
  refine .bind hpre₁ (calls_offset hpre₁ fun _ s h => hright s h.1) fun right => ?_
  exact calls_callEqByPtr (hpre₁.and (persistent_type _ _ _)) hgenerated (fun s h => h.1.2)
    fun s h => h.2

theorem calls_eqFields {leftBase rightBase : Var} {falseLbl : LabelRef} {lbls : List LabelRef}
    {fields : List (Option ℕ × Ty)} (hpre : Persistent pre)
    (hgenerated : ∀ ty, S.generated (.generatedEq ty))
    (hleft : ∀ s, pre s → IsPointer S leftBase s) (hright : ∀ s, pre s → IsPointer S rightBase s) :
    Calls S pre (eqFields rt leftBase rightBase falseLbl lbls fields) Any := by
  induction lbls, fields using eqFields.induct with
  | case1 lbl next lbls off ty fields ih =>
    unfold eqFields
    refine .seq hpre (calls_newBlock lbl) fun _ => ?_
    cases off with
    | none => exact .seq hpre (calls_emit fun _ _ => trivial) fun _ => ih
    | some off =>
      refine .seq hpre (calls_eqField hpre (hgenerated _) hleft hright) fun out => ?_
      exact .seq hpre (calls_emit fun _ _ => trivial) fun _ => ih
  | case2 lbls fields hne =>
    rw [eqFields]
    · exact .pure fun _ _ => trivial
    · exact hne

theorem calls_returnBool (lbl : LabelRef) (b : Bool) : Calls S pre (returnBool lbl b) Any :=
  Calls.always (.seq persistent_true (calls_newBlock lbl) fun _ => calls_emit fun _ _ => trivial)

theorem calls_eqVariant {leftBase rightBase : Var} {falseLbl variantLbl : LabelRef}
    {tys : List Ty} (hpre : Persistent pre) (hgenerated : ∀ ty, S.generated (.generatedEq ty))
    (hleft : ∀ s, pre s → IsPointer S leftBase s) (hright : ∀ s, pre s → IsPointer S rightBase s) :
    Calls S pre (eqVariant rt leftBase rightBase falseLbl variantLbl tys) Any := by
  unfold eqVariant
  refine .seq hpre (calls_wrapInternals _).always fun lbls => ?_
  split
  · exact calls_emit fun _ _ => trivial
  · refine .seq hpre (calls_newBlock variantLbl) fun _ => ?_
    refine .seq hpre (.unwrap fun _ _ _ _ => trivial) fun first => ?_
    refine .seq hpre (calls_emit fun _ _ => trivial) fun _ => ?_
    refine .seq hpre (calls_eqFields hpre hgenerated hleft hright) fun _ => ?_
    exact .seq hpre (.unwrap fun _ _ _ _ => trivial) fun last => calls_returnBool last true

theorem calls_eqVariants {leftBase rightBase : Var} {falseLbl : LabelRef} {lbls : List LabelRef}
    {variants : List (Identifier × List Ty)} (hpre : Persistent pre)
    (hgenerated : ∀ ty, S.generated (.generatedEq ty))
    (hleft : ∀ s, pre s → IsPointer S leftBase s) (hright : ∀ s, pre s → IsPointer S rightBase s) :
    Calls S pre (eqVariants rt leftBase rightBase falseLbl lbls variants) Any := by
  induction lbls, variants using eqVariants.induct with
  | case1 lbl lbls ident tys variants ih =>
    unfold eqVariants
    exact .seq hpre (calls_eqVariant hpre hgenerated hleft hright) fun _ => ih
  | case2 lbls variants hne =>
    rw [eqVariants]
    · exact .pure fun _ _ => trivial
    · exact hne

/-- A comparison that ends a function. -/
theorem calls_compare {i : Var → Instruction} (hi : ∀ dest s, Accounted S s (i dest)) :
    Calls S pre (do
      let dest ← newTmp .bool
      emit (i dest)
      emit (.ret (some (.place dest)))) Any := by
  refine Calls.always (.bind persistent_true (calls_newTmp .bool) fun dest => ?_)
  exact .seq (persistent_true.and (persistent_type _ _ _)) (calls_emit fun _ _ => hi _ _) fun _ =>
    calls_emit fun _ _ => trivial

/-- A comparison of what is read. -/
theorem calls_readBoth {irTy : Option IrType} {leftPtr rightPtr : Var}
    {k : Operand → Operand → Lower Unit} (hk : ∀ l r, Calls S (fun _ => True) (k l r) Any) :
    Calls S pre (do
      let irTy ← unwrap irTy
      let left ← readTmp leftPtr irTy
      let right ← readTmp rightPtr irTy
      k left right) Any := by
  refine Calls.always (.seq persistent_true (.unwrap fun _ _ _ _ => trivial) fun irTy => ?_)
  have hread : ∀ ptr, Calls S (fun _ => True) (readTmp ptr irTy) Any := fun ptr =>
    (calls_readTmp ptr irTy).imp (fun _ h => h) fun _ _ _ => trivial
  exact .seq persistent_true (hread _) fun left => .seq persistent_true (hread _) fun right =>
    hk left right

theorem calls_generateEqBody {ty : Ty} {scope : ScopeRef} (hpre : Persistent pre)
    (hgenerated : ∀ ty, S.generated (.generatedEq ty))
    (hleft : ∀ s, pre s → IsPointer S ⟨scope, .explicit "left"⟩ s)
    (hright : ∀ s, pre s → IsPointer S ⟨scope, .explicit "right"⟩ s) :
    Calls S pre (generateEqBody rt ty scope) Any := by
  have hruntime : Calls S pre (generateEqRuntime rt ⟨scope, .explicit "left"⟩
      ⟨scope, .explicit "right"⟩ ty) Any :=
    Calls.always (.seq persistent_true (.unwrap fun _ _ _ _ => trivial) fun _ =>
      calls_compare fun _ _ => trivial)
  have hint : Calls S pre (generateIntEq rt ⟨scope, .explicit "left"⟩
      ⟨scope, .explicit "right"⟩ ty) Any := calls_readBoth fun _ _ => calls_compare fun _ _ => trivial
  have hfloat : Calls S pre (generateFloatEq rt ⟨scope, .explicit "left"⟩
      ⟨scope, .explicit "right"⟩ ty) Any := calls_readBoth fun _ _ => calls_compare fun _ _ => trivial
  unfold generateEqBody
  split
  · exact calls_emit fun _ _ => trivial
  · exact calls_emit fun _ _ => trivial
  · refine .seq hpre calls_wrapInternal fun _ => ?_
    refine .seq hpre (calls_wrapInternals _).always fun lbls => ?_
    refine .seq hpre calls_wrapInternal fun falseLbl => ?_
    refine .seq hpre (.unwrap fun _ _ _ _ => trivial) fun first => ?_
    refine .seq hpre (calls_emit fun _ _ => trivial) fun _ => ?_
    refine .seq hpre (calls_eqFields hpre hgenerated hleft hright) fun _ => ?_
    refine .seq hpre (.unwrap fun _ _ _ _ => trivial) fun last => ?_
    exact .seq hpre (calls_returnBool last true) fun _ => calls_returnBool falseLbl false
  · refine .seq hpre calls_wrapInternal fun _ => ?_
    refine .seq hpre calls_wrapInternal fun matchLbl => ?_
    refine .seq hpre calls_wrapInternal fun falseLbl => ?_
    refine .seq hpre (calls_wrapInternals _).always fun variantLbls => ?_
    have hread : ∀ ptr, Calls S pre (readTmp ptr .u8) Any := fun ptr =>
      (calls_readTmp ptr .u8).imp (fun _ h => h) fun _ _ _ => trivial
    refine .seq hpre (hread _) fun leftDiscriminant => ?_
    refine .seq hpre (hread _) fun rightDiscriminant => ?_
    refine .seq hpre ((calls_newTmp .u8).imp (fun _ h => h) fun _ _ _ => trivial)
      fun discriminantsEqual => ?_
    refine .seq hpre (calls_emit fun _ _ => trivial) fun _ => ?_
    refine .seq hpre (calls_emit fun _ _ => trivial) fun _ => ?_
    refine .seq hpre (calls_newBlock matchLbl) fun _ => ?_
    refine .seq hpre (calls_emit fun _ _ => trivial) fun _ => ?_
    refine .seq hpre (calls_eqVariants hpre hgenerated hleft hright) fun _ => ?_
    exact calls_returnBool falseLbl false
  · exact hruntime
  · exact hfloat
  · exact hruntime
  · exact hruntime
  · exact hruntime
  · exact hint
  · exact hruntime

/-! ### Registered functions -/

/-- The type that an argument of a registered function is passed with. -/
def runtimeType (rt : Rt) (dynVal : Bool) (ty : Ty) : Option IrType :=
  if dynVal then (layoutOf rt ty).map fun _ => .pointer else lowerType rt ty

/-- The types of all arguments: the out pointer, the v-tables, and what is passed of the rest. -/
def runtimeTypes (rt : Rt) (dynVals : List Bool) (vtables : ℕ) (tys : List Ty) : List IrType :=
  .pointer :: (List.replicate vtables .pointer ++
    (dynVals.zip tys).filterMap fun p => runtimeType rt p.1 p.2)

/-- Arguments are of the types of their parameters. -/
def Arguments (S : Site) (args : List Argument) (tys : List IrType) (s : Lowerer) : Prop :=
  args.map (·.2.2) = tys ∧ ∀ a ∈ args, s.type S a.1 = some a.2.2

theorem persistent_arguments (args : List Argument) (tys : List IrType) :
    Persistent (Arguments S args tys) :=
  fun _ _ hlater h => ⟨h.1, fun a ha => hlater.type (h.2 a ha)⟩

theorem Arguments.append {args args' : List Argument} {tys tys' : List IrType} {s : Lowerer}
    (h : Arguments S args tys s) (h' : Arguments S args' tys' s) :
    Arguments S (args ++ args') (tys ++ tys') s := by
  refine ⟨by rw [List.map_append, h.1, h'.1], fun a ha => ?_⟩
  rcases List.mem_append.mp ha with ha | ha
  · exact h.2 a ha
  · exact h'.2 a ha

theorem calls_functionAddress {needed : Bool} {name : FunName} (hname : generatedSignature name ≠ none)
    (hgenerated : S.generated name) :
    Calls S (fun _ => True) (functionAddress needed name (Lowerer.request name)) fun op s =>
      s.type S op = some .pointer := by
  unfold functionAddress
  split_ifs
  · exact .pure fun _ _ => rfl
  · refine .bind persistent_true (calls_newTmp .pointer) fun tmp => ?_
    have hpre := persistent_true.and (persistent_type S (.place tmp) .pointer)
    exact calls_request_seq name hpre (fun s _ => ⟨hgenerated, request_queued name hname s⟩)
      fun _ => .pure fun s h => h.2

theorem calls_vtableField (base : Var) (val : Operand) (builder : LayoutBuilder) :
    Calls S pre (vtableField base val builder) Any :=
  Calls.always (.seq persistent_true (calls_offset_any _ _) fun _ =>
    .seq persistent_true (calls_emit fun _ _ => trivial) fun _ => .pure fun _ _ => trivial)

theorem calls_vtable (tyRef : Ty) (hgenerated : ∀ name, S.generated name) :
    Calls S (fun _ => True) (vtable rt tyRef) fun op s => s.type S op = some .pointer := by
  have haddress : ∀ needed name, generatedSignature name ≠ none →
      Calls S (fun _ => True) (functionAddress needed name (Lowerer.request name)) Any :=
    fun needed name hname =>
      (calls_functionAddress hname (hgenerated name)).imp (fun _ h => h) fun _ _ _ => trivial
  refine .seq persistent_true (haddress _ (.generatedClone tyRef) (Option.some_ne_none _))
    fun cloneFuncAddr => ?_
  refine .seq persistent_true (haddress _ (.generatedDrop tyRef) (Option.some_ne_none _))
    fun dropFuncAddr => ?_
  refine .seq persistent_true (haddress _ (.generatedEq tyRef) (Option.some_ne_none _))
    fun eqFuncAddr => ?_
  refine .bind persistent_true (calls_newStackSlot _) fun base => ?_
  have hpre := persistent_true.and (persistent_type S (.place base) .pointer)
  refine .seq hpre (calls_vtableField _ _ _) fun builder => ?_
  refine .seq hpre (calls_vtableField _ _ _) fun builder => ?_
  refine .seq hpre (calls_vtableField _ _ _) fun builder => ?_
  refine .seq hpre (calls_vtableField _ _ _) fun builder => ?_
  exact .seq hpre (calls_vtableField _ _ _) fun _ => .pure fun s h => h.2

theorem calls_vtableArgs (i : ℕ) (vtables : List Ty) (hgenerated : ∀ name, S.generated name) :
    Calls S (fun _ => True) (vtableArgs rt i vtables) fun args s =>
      Arguments S args (List.replicate vtables.length .pointer) s := by
  induction vtables generalizing i with
  | nil => exact .pure fun _ _ => ⟨rfl, fun a ha => nomatch ha⟩
  | cons tyRef vtables ih =>
    refine .bind persistent_true (calls_vtable tyRef hgenerated) fun base => ?_
    have hpre := persistent_true.and (persistent_type S base .pointer)
    refine .bind hpre (ih (i + 1)).always fun args => .pure fun s h => ?_
    obtain ⟨⟨-, hbase⟩, htys, hargs⟩ := h
    refine ⟨congrArg (IrType.pointer :: ·) htys, fun a ha => ?_⟩
    rcases List.mem_cons.mp ha with rfl | ha
    · exact hbase
    · exact hargs a ha

theorem calls_runtimeArg {i : ℕ} {dynVal : Bool} {arg : Mir.Var} {ty : Ty} (hpre : Persistent pre)
    (harg : dynVal = false → ∀ s, pre s → ∀ irTy, lowerType rt ty = some irTy →
      s.type S (.place (lowerVar arg)) = some irTy) :
    Calls S pre (runtimeArg rt i dynVal arg ty) fun a s =>
      Arguments S a.toList (runtimeType rt dynVal ty).toList s := by
  unfold runtimeArg
  cases dynVal with
  | false =>
    simp only [Bool.not_false, if_true]
    split
    next h => exact .pure fun s hs => ⟨by simp [runtimeType, h], fun a ha => nomatch ha⟩
    next irTy h =>
      refine .pure fun s hs => ⟨by simp [runtimeType, h], fun a ha => ?_⟩
      obtain rfl := List.mem_singleton.mp ha
      exact harg rfl s hs irTy h
  | true =>
    simp only [Bool.not_true, Bool.false_eq_true, if_false]
    split
    next h => exact .pure fun s hs => ⟨by simp [runtimeType, h], fun a ha => nomatch ha⟩
    next elemLayout h =>
      refine .bind hpre (calls_newStackSlot _) fun slot => ?_
      have hpre₁ := hpre.and (persistent_type S (.place slot) .pointer)
      refine .seq hpre₁ (calls_moveVal _ _ _) fun _ => .pure fun s hs => ?_
      refine ⟨by simp [runtimeType, h], fun a ha => ?_⟩
      obtain rfl := List.mem_singleton.mp ha
      exact hs.2

theorem drop_of_getElem? {l : List α} {i : ℕ} {a : α} (h : l[i]? = some a) :
    l.drop i = a :: l.drop (i + 1) := by
  obtain ⟨hlt, rfl⟩ := List.getElem?_eq_some_iff.mp h
  exact List.drop_eq_getElem_cons hlt

theorem calls_runtimeArgs {dynVals : List Bool} {tys : List Ty} {i : ℕ} {mirArgs : List Mir.Var}
    (hpre : Persistent pre)
    (hargs : ∀ p ∈ (dynVals.drop i).zip (mirArgs.zip (tys.drop i)), p.1 = false → ∀ s, pre s →
      ∀ irTy, lowerType rt p.2.2 = some irTy → s.type S (.place (lowerVar p.2.1)) = some irTy) :
    Calls S pre (runtimeArgs rt dynVals tys i mirArgs) fun args s =>
      Arguments S args ((((dynVals.zip tys).drop i).take mirArgs.length).filterMap
        fun p => runtimeType rt p.1 p.2) s := by
  induction mirArgs generalizing i with
  | nil => exact .pure fun _ _ => ⟨by simp, fun a ha => nomatch ha⟩
  | cons arg mirArgs ih =>
    intro s a s' hs hrun
    obtain ⟨ty, s₁, hfirst, hrun⟩ := Lower.bind_some hrun
    obtain ⟨hty, rfl⟩ := Lower.unwrap_some hfirst
    obtain ⟨dynVal, s₁, hsecond, hrun⟩ := Lower.bind_some hrun
    obtain ⟨hdyn, rfl⟩ := Lower.unwrap_some hsecond
    rw [drop_of_getElem? hty, drop_of_getElem? hdyn, List.zip_cons_cons, List.zip_cons_cons]
      at hargs
    have hget : (dynVals.zip tys)[i]? = some (dynVal, ty) :=
      List.getElem?_zip_eq_some.mpr ⟨hdyn, hty⟩
    have hzip := drop_of_getElem? hget
    have htail := ih fun p hp => hargs p (List.mem_cons_of_mem _ hp)
    have hboth : Calls S pre (do
        let this ← runtimeArg rt i dynVal arg ty
        let args ← runtimeArgs rt dynVals tys (i + 1) mirArgs
        return this.toList ++ args) fun args s =>
      Arguments S args ((((dynVals.zip tys).drop i).take (mirArgs.length + 1)).filterMap
        fun p => runtimeType rt p.1 p.2) s := by
      refine .bind hpre (calls_runtimeArg hpre (hargs (dynVal, arg, ty) List.mem_cons_self)) fun this => ?_
      have hpre₁ := hpre.and (persistent_arguments (S := S) this.toList
        (runtimeType rt dynVal ty).toList)
      refine .bind hpre₁ (htail.imp (fun s h => h.1) fun _ _ h => h) fun args => .pure fun s h => ?_
      have hall := h.1.2.append h.2
      rw [hzip, List.take_succ_cons, List.filterMap_cons]
      cases htype : runtimeType rt dynVal ty with
      | none =>
        rw [htype] at hall
        exact hall
      | some irTy =>
        rw [htype] at hall
        exact hall
    exact hboth s a s' hs hrun

/-- The signature of a registered function is recorded. -/
theorem calls_record {funcRef : ℕ} {sig : Signature} (h : ∀ s, pre s → S.runtime funcRef sig) :
    Calls S pre
      (modify fun s => { s with runtimeFunctions := (funcRef, sig) :: s.runtimeFunctions })
      fun _ s => (funcRef, sig) ∈ s.runtimeFunctions := by
  intro s u s' hs hrun
  obtain rfl := Lower.modify_some hrun
  refine ⟨⟨rfl, le_rfl, (Later.refl s).vars, fun _ h => h, List.subset_cons_self _ _,
    List.Subset.refl _⟩, hs, fun hpre => ⟨List.mem_cons_self, fun i hi => .inl hi, ?_⟩⟩
  intro e he
  rcases List.mem_cons.mp he with rfl | he
  · exact .inr (h s hpre)
  · exact .inl he

theorem calls_callRuntime {funcRef : ℕ} {dynVals : List Bool} {mirArgs : List Mir.Var}
    {vtables : List Ty} {mirSignature : Mir.Signature} (hpre : Persistent pre)
    (hgenerated : ∀ name, S.generated name)
    (hruntime : ∀ sig, sig.parameters.map (·.2) =
      runtimeTypes rt dynVals vtables.length mirSignature.parameterTypes → S.runtime funcRef sig)
    (hlength : (dynVals.zip mirSignature.parameterTypes).length ≤ mirArgs.length)
    (hargs : ∀ p ∈ dynVals.zip (mirArgs.zip mirSignature.parameterTypes), p.1 = false → ∀ s, pre s →
      ∀ irTy, lowerType rt p.2.2 = some irTy → s.type S (.place (lowerVar p.2.1)) = some irTy) :
    Calls S pre (callRuntime rt funcRef dynVals mirArgs vtables mirSignature) Any := by
  unfold callRuntime
  refine .bind hpre (calls_newStackSlot _) fun outPtr => ?_
  have hpre₁ := hpre.and (persistent_type S (.place outPtr) .pointer)
  refine .bind hpre₁ (calls_vtableArgs 0 vtables hgenerated).always fun tables => ?_
  have hpre₂ := hpre₁.and (persistent_arguments (S := S) tables
    (List.replicate vtables.length .pointer))
  let tys := (dynVals.zip mirSignature.parameterTypes).filterMap fun p => runtimeType rt p.1 p.2
  have hrest : Calls S (fun s => (pre s ∧ IsPointer S outPtr s) ∧
      Arguments S tables (List.replicate vtables.length .pointer) s)
      (runtimeArgs rt dynVals mirSignature.parameterTypes 0 mirArgs) fun args s =>
        Arguments S args tys s := by
    refine (calls_runtimeArgs (i := 0) hpre₂ fun p hp hval s hs => hargs p hp hval s hs.1.1).imp (fun _ h => h) ?_
    intro args s h
    rw [List.drop_zero, List.take_of_length_le hlength] at h
    exact h
  refine .bind hpre₂ hrest fun rest => ?_
  let all : List Argument := (.place outPtr, "ret", .pointer) :: (tables ++ rest)
  let allTys := runtimeTypes rt dynVals vtables.length mirSignature.parameterTypes
  have hall : ∀ s, ((pre s ∧ IsPointer S outPtr s) ∧
      Arguments S tables (List.replicate vtables.length .pointer) s) ∧ Arguments S rest tys s →
      Arguments S all allTys s := by
    intro s hs
    obtain ⟨⟨⟨-, hptr⟩, htables⟩, hrest⟩ := hs
    have happend := htables.append hrest
    refine ⟨congrArg (IrType.pointer :: ·) happend.1, fun a ha => ?_⟩
    rcases List.mem_cons.mp ha with rfl | ha
    · exact hptr
    · exact happend.2 a ha
  refine Calls.imp ?_ hall fun _ _ h => h
  have hpersistent : Persistent (Arguments S all allTys) := persistent_arguments all allTys
  refine .bind hpersistent (calls_record fun s hs => hruntime _ ?_) fun _ => ?_
  · exact List.map_map.trans hs.1
  refine .seq (hpersistent.and ?_) (calls_emit fun s hs => ?_) fun _ => ?_
  · exact fun s s' hlater h => hlater.runtimeFunctions h
  · refine ⟨_, hs.2, hruntime _ ?_, ?_⟩
    · exact List.map_map.trans hs.1.1
    · show (all.map (·.1)).map (s.type S) = (all.map (·.2)).map fun p => some p.2
      rw [List.map_map, List.map_map]
      exact List.map_congr_left fun a ha => hs.1.2 a ha
  · refine Calls.always ?_
    split
    · exact .pure fun _ _ => trivial
    · exact .pure fun _ _ => trivial
    · split
      · exact .pure fun _ _ => trivial
      · refine .seq persistent_true
          ((calls_newTmp _).imp (fun _ h => h) fun _ _ _ => trivial) fun tmp => ?_
        exact .seq persistent_true (calls_emit fun _ _ => trivial) fun _ => .pure fun _ _ => trivial

end Roto.Lir
