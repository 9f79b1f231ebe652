import RotoCompiler.Lir.Programs
import RotoCompiler.Lir.Values

/-!
# The calls that items emit

Instruction by instruction of the MIR, and then for the blocks of an item.
-/

namespace Roto.Lir
open Mir
open Ast (Literal BinOp)

variable {S : Site} {α : Type} {pre : Lowerer → Prop} {post : α → Lowerer → Prop} {env : LowerEnv}

/-! ### Values -/

theorem calls_literal (lit : Literal) (ty : Ty) : Calls S pre (literal env lit ty) Any := by
  refine Calls.always ?_
  unfold literal
  split
  · exact .seq persistent_true ((calls_newStackSlot _).imp (fun _ h => h) fun _ _ _ => trivial)
      fun dest => .seq persistent_true (calls_emit fun _ _ => trivial) fun _ => .pure fun _ _ => trivial
  · exact .pure fun _ _ => trivial
  · exact .pure fun _ _ => trivial
  · exact .seq persistent_true ((calls_newStackSlot _).imp (fun _ h => h) fun _ _ _ => trivial)
      fun dest => .seq persistent_true (calls_emit fun _ _ => trivial) fun _ => .pure fun _ _ => trivial
  · exact .seq persistent_true (.unwrap fun _ _ _ _ => trivial) fun v => .pure fun _ _ => trivial
  · split
    · exact .pure fun _ _ => trivial
    · exact .pure fun _ _ => trivial
    · exact .unwrap fun _ _ _ _ => trivial
  · exact .pure fun _ _ => trivial
  · exact .pure fun _ _ => trivial

theorem calls_emitTmp (irTy : IrType) {i : Var → Option Instruction}
    (h : ∀ dest j s, i dest = some j → Accounted S s j) : Calls S pre (emitTmp irTy i) Any := by
  refine Calls.always ?_
  refine .seq persistent_true ((calls_newTmp irTy).imp (fun _ h => h) fun _ _ _ => trivial)
    fun dest => ?_
  refine .bind persistent_true (.unwrap fun j s hj _ => hj) fun j => ?_
  refine .seq (persistent_true.and persistent_const) (calls_emit fun s hs => h dest j s hs.2)
    fun _ => ?_
  exact .pure fun _ _ => trivial

theorem intArith_accounted {dest : Var} {left right : Operand} {signed : Bool} {op : BinOp}
    {i : Instruction} {s : Lowerer} (h : intArith dest left right signed op = some i) :
    Accounted S s i := by
  cases op <;> cases h <;> trivial

theorem floatArith_accounted {dest : Var} {left right : Operand} {op : BinOp} {i : Instruction}
    {s : Lowerer} (h : floatArith dest left right op = some i) : Accounted S s i := by
  cases op <;> cases h <;> trivial

theorem calls_binop {left right : Mir.Var} {op : BinOp} {ty : Ty} (hpre : Persistent pre)
    (hgenerated : ∀ name, S.generated name)
    (h : (op = .eq ∨ op = .ne) ∧ generatesEq env.rt ty → ∀ s, pre s →
      s.type S (.place (lowerVar left)) = some .pointer ∧
        s.type S (.place (lowerVar right)) = some .pointer) :
    Calls S pre (binop env left op ty right) Any := by
  unfold binop
  dsimp only
  split_ifs with heq hne
  · exact calls_callEqOf hpre (hgenerated _) (fun hg s hs => (h ⟨.inl heq, hg⟩ s hs).1)
      fun hg s hs => (h ⟨.inl heq, hg⟩ s hs).2
  · exact calls_callEqOf hpre (hgenerated _) (fun hg s hs => (h ⟨.inr hne, hg⟩ s hs).1)
      fun hg s hs => (h ⟨.inr hne, hg⟩ s hs).2
  · have hcmp : ∀ (i : Var → Instruction), (∀ dest s, Accounted S s (i dest)) →
        Calls S pre (emitTmp .bool fun dest => some (i dest)) Any := by
      intro i hi
      refine calls_emitTmp _ fun dest j s hj => ?_
      obtain rfl := Option.some.inj hj
      exact hi dest s
    split
    · split
      · exact hcmp _ fun _ _ => trivial
      · exact .seq hpre (.unwrap fun _ _ _ _ => trivial) fun irTy =>
          calls_emitTmp _ fun _ _ _ hj => intArith_accounted hj
    · split
      · exact hcmp _ fun _ _ => trivial
      · exact .seq hpre (.unwrap fun _ _ _ _ => trivial) fun irTy =>
          calls_emitTmp _ fun _ _ _ hj => floatArith_accounted hj
    · exact .seq hpre (.unwrap fun _ _ _ _ => trivial) fun cmp => hcmp _ fun _ _ => trivial
    · exact .unwrap fun _ _ _ _ => trivial

theorem calls_negate (var : Mir.Var) (ty : Ty) : Calls S pre (negate env.rt var ty) Any := by
  refine Calls.always ?_
  refine .seq persistent_true (.unwrap fun _ _ _ _ => trivial) fun irTy => ?_
  refine .seq persistent_true ((calls_newTmp irTy).imp (fun _ h => h) fun _ _ _ => trivial)
    fun tmp => ?_
  exact .seq persistent_true (calls_emit fun _ _ => trivial) fun _ => .pure fun _ _ => trivial

/-! ### Calls -/

/-- Where a result goes is as a signature with that return type has it. -/
def Returns (S : Site) (rt : Rt) (returnType : Ty) (r : Option (Var × IrType) × Option Var)
    (s : Lowerer) : Prop :=
  match isReferenceType rt returnType with
  | some true => r.1 = none ∧ ∃ p, r.2 = some p ∧ IsPointer S p s
  | some false => r.1.map (·.2) = lowerType rt returnType ∧ r.2 = none
  | none => r = (none, none)

theorem persistent_returns (rt : Rt) (returnType : Ty) (r : Option (Var × IrType) × Option Var) :
    Persistent (Returns S rt returnType r) := by
  intro s s' hlater h
  unfold Returns at h ⊢
  split at h
  · obtain ⟨h₁, p, h₂, hp⟩ := h
    exact ⟨h₁, p, h₂, hlater.type hp⟩
  · exact h
  · exact h

theorem calls_callResult (returnType : Ty) :
    Calls S pre (callResult env returnType) (Returns S env.rt returnType) := by
  refine Calls.always ?_
  unfold callResult
  split
  · next hreference =>
    refine .seq persistent_true (.unwrap fun _ _ _ _ => trivial) fun l => ?_
    refine .bind persistent_true (calls_newStackSlot l) fun outPtr => .pure fun s hs => ?_
    unfold Returns
    rw [hreference]
    exact ⟨rfl, outPtr, rfl, hs.2⟩
  · next hreference =>
    split
    · next hlower =>
      refine .pure fun s _ => ?_
      unfold Returns
      rw [hreference, hlower]
      exact ⟨rfl, rfl⟩
    · next irTy hlower =>
      refine .seq persistent_true ((calls_newTmp irTy).imp (fun _ h => h) fun _ _ _ => trivial)
        fun tmp => .pure fun s _ => ?_
      unfold Returns
      rw [hreference, hlower]
      exact ⟨rfl, rfl⟩
  · next hreference =>
    refine .pure fun s _ => ?_
    unfold Returns
    rw [hreference]

theorem passes_of_returns {rt : Rt} {sig : Mir.Signature}
    {r : Option (Var × IrType) × Option Var} {s : Lowerer} {args : List Operand}
    {scope : ScopeRef} (hreturns : Returns S rt sig.returnType r s)
    (hargs : args.map (s.type S) = (sig.parameterTypes.filterMap (lowerType rt)).map some) :
    Passes (s.type S) r.1 (some (.place ⟨scope, .context⟩)) args r.2 (callSignature rt sig) := by
  unfold Returns at hreturns
  refine ⟨?_, rfl, ?_, ?_⟩
  · rw [hargs, callSignature, List.map_map]
    rfl
  all_goals
    unfold callSignature
    split at hreturns
    next href =>
      obtain ⟨hdest, p, hptr, hp⟩ := hreturns
      simp [href, hdest, hptr, hp]
    next href =>
      obtain ⟨hdest, hptr⟩ := hreturns
      simp [href, hdest, hptr]
    next href =>
      subst hreturns
      simp [href]

/-- A type is lowered if it has values that take space. -/
theorem lowerType_any (rt : Rt) (ty : Ty) :
    (lowerType rt ty).isSome = (layoutOf rt ty).any fun l => !l.isZeroSized := by
  cases hl : layoutOf rt ty with
  | none => rw [lowerType_uninhabited hl, Option.isSome_none, Option.any_none]
  | some l => exact lowerType_isSome hl

/-- The arguments that are passed are those whose types are in the signature. -/
theorem passedArgs_types {args : List Mir.Var} {tys : List Ty} {s : Lowerer}
    (hlen : args.length = tys.length)
    (h : ∀ p ∈ args.zip tys, ∀ irTy, lowerType env.rt p.2 = some irTy →
      s.type S (.place (lowerVar p.1)) = some irTy) :
    (passedArgs env (args.zip tys)).map (s.type S) =
      (tys.filterMap (lowerType env.rt)).map some := by
  induction args generalizing tys with
  | nil =>
    obtain rfl := List.length_eq_zero_iff.mp hlen.symm
    rfl
  | cons arg args ih =>
    cases tys with
    | nil => cases hlen
    | cons ty tys =>
      have htail := ih (Nat.succ.inj hlen) fun p hp => h p (List.mem_cons_of_mem _ hp)
      have hsome := lowerType_any env.rt ty
      unfold passedArgs at htail ⊢
      rw [List.zip_cons_cons, List.filter_cons]
      cases hlower : lowerType env.rt ty with
      | none =>
        rw [hlower] at hsome
        rw [← hsome, List.filterMap_cons_none hlower]
        exact htail
      | some irTy =>
        rw [hlower] at hsome
        rw [← hsome, List.filterMap_cons_some hlower]
        simp only [Option.isSome_some, if_true, List.map_cons]
        rw [htail, h (arg, ty) List.mem_cons_self irTy hlower]

/-- The call of a function that has a signature there. -/
theorem calls_call {func : ResolvedName} {args : List Mir.Var} {mirSignature : Mir.Signature}
    (hpre : Persistent pre)
    (h : ∀ s, pre s → S.items (env.fullName func) (callSignature env.rt mirSignature) ∧
      (passedArgs env (args.zip mirSignature.parameterTypes)).map (s.type S) =
        (mirSignature.parameterTypes.filterMap (lowerType env.rt)).map some) :
    Calls S pre (call env func args mirSignature) Any := by
  unfold call
  refine .bind hpre (calls_callResult _) fun r => ?_
  have hpre₁ := hpre.and (persistent_returns (S := S) env.rt mirSignature.returnType r)
  refine .seq hpre₁ (.get fun _ _ => trivial) fun s₀ => ?_
  refine .seq hpre₁ (calls_emit fun s hs => ?_) fun _ => .pure fun _ _ => trivial
  obtain ⟨hitem, hargs⟩ := h s hs.1
  exact ⟨_, hitem, passes_of_returns hs.2 hargs⟩

/-! ### Assignments -/

/-- What an instruction of the MIR relies on. -/
structure Relies (S : Site) (env : LowerEnv) (pre : Lowerer → Prop) (i : Mir.Instruction) :
    Prop where
  persistent : Persistent pre
  generated : ∀ name, S.generated name
  calls : ∀ dest ty func args sig, i = .assign dest ty (.call func args sig) →
    ∀ s, pre s → S.items (env.fullName func) (callSignature env.rt sig) ∧
      (passedArgs env (args.zip sig.parameterTypes)).map (s.type S) =
        (sig.parameterTypes.filterMap (lowerType env.rt)).map some
  runtimeCalls : ∀ dest ty func args vtables sig,
    i = .assign dest ty (.callRuntime func args vtables sig) →
      args.length = sig.parameterTypes.length ∧ ∀ irSig : Signature,
        irSig.parameters.map (·.2) =
          runtimeTypes env.rt (env.dynVals func) vtables.length sig.parameterTypes →
        S.runtime func irSig
  handedOver : ∀ p ∈ handedOver env.rt env.dynVals i, ∀ s, pre s →
    s.type S (.place (lowerVar p.1)) = some p.2

theorem mem_placeBase {rt : Rt} {place : Place} {ty : Ty} {base : Var} {off : ℕ}
    (h : location rt place ty = some (some (.pointer base off))) (hoff : asU32 off = 0) :
    (place.var, .pointer) ∈ placeBase rt place ty := by
  unfold placeBase
  rw [h]
  simp only [hoff, if_true]
  exact List.mem_singleton_self _

/-- The base of a place in memory is the variable of the place. -/
theorem location_pointer {rt : Rt} {place : Place} {ty : Ty} {base : Var} {off : ℕ}
    (h : location rt place ty = some (some (.pointer base off))) : base = lowerVar place.var := by
  unfold location at h
  split at h
  · split at h
    · cases h
    · cases h
      rfl
    · cases h
  · obtain ⟨r, hr, h⟩ := Option.bind_eq_some_iff.mp h
    cases r with
    | none => cases h
    | some r =>
      cases h
      rfl

/-- The place is behind a pointer, if what is handed over of it is declared. -/
theorem known_of_placeBase {rt : Rt} {place : Place} {ty : Ty} {l : Location}
    (h : location rt place ty = some (some l))
    (hbase : ∀ p ∈ placeBase rt place ty, ∀ s, pre s →
      s.type S (.place (lowerVar p.1)) = some p.2) {s : Lowerer} (hs : pre s) : l.Known S s := by
  cases l with
  | var _ => trivial
  | pointer base off =>
    intro hoff
    rw [location_pointer h]
    exact hbase _ (mem_placeBase h hoff) s hs

theorem calls_cloneInto {dest : Option Location} {src : Location} {ty : Ty} (hpre : Persistent pre)
    (hgenerated : S.generated (.generatedClone ty))
    (hdest : ∀ l, dest = some l → src.isPointer → generatesClone env.rt ty → ∀ s, pre s → l.Known S s)
    (hsrc : ∀ l, dest = some l → l.isPointer → generatesClone env.rt ty → ∀ s, pre s →
      src.Known S s) : Calls S pre (cloneInto env dest src ty) Any := by
  cases dest with
  | none => exact .pure fun _ _ => trivial
  | some l => exact calls_callCloneOf hpre hgenerated (hdest l rfl) (hsrc l rfl)

theorem calls_assignValue {dest : Place} {loc : Option Location} {ty : Ty} {value : Mir.Value}
    (hloc : location env.rt dest ty = some loc) (h : Relies S env pre (.assign dest ty value)) :
    Calls S pre (assignValue env loc ty value) Any := by
  have hpre := h.persistent
  have hbase := h.handedOver
  cases value with
  | const lit litTy => exact calls_literal lit litTy
  | constant name constTy =>
    refine .bind hpre (calls_newTmp .pointer) fun ptrVar => ?_
    have hpre₁ := hpre.and (persistent_type S (.place ptrVar) .pointer)
    refine .seq hpre₁ (calls_emit fun _ _ => trivial) fun _ => ?_
    refine .seq hpre₁ (calls_cloneInto hpre₁ (h.generated _) ?_ ?_) fun _ => .pure fun _ _ => trivial
    · intro l hl _ hclone s hs
      refine known_of_placeBase (hl ▸ hloc) (fun p hp => hbase p ?_) hs.1
      rw [handedOver, if_pos hclone]
      exact hp
    · exact fun _ _ _ _ s hs _ => hs.2
  | context x =>
    refine .seq hpre (.get fun _ _ => trivial) fun s₀ => ?_
    refine .seq hpre (calls_cloneInto hpre (h.generated _) ?_ ?_) fun _ => .pure fun _ _ => trivial
    · intro l hl _ hclone s hs
      refine known_of_placeBase (hl ▸ hloc) (fun p hp => hbase p ?_) hs
      rw [handedOver, if_pos hclone]
      exact hp
    · exact fun _ _ _ _ s hs _ => rfl
  | clone place =>
    refine .bind hpre (.unwrap fun src s hsrc _ => hsrc) fun src => ?_
    cases src with
    | none => exact .pure fun _ _ => trivial
    | some src =>
      have hpre₁ := hpre.and (persistent_const (p := location env.rt place ty = some (some src)))
      refine .seq hpre₁ (calls_cloneInto hpre₁ (h.generated _) ?_ ?_) fun _ =>
        .pure fun _ _ => trivial
      · intro l hl hsrc hclone s hs
        cases l with
        | var _ => trivial
        | pointer base off =>
          have hmem : inMemory env.rt dest ty ∧ inMemory env.rt place ty := by
            simp only [inMemory, hloc, hl, hs.2, hsrc, and_true]
            rfl
          refine known_of_placeBase (hl ▸ hloc) (fun p hp => hbase p ?_) hs.1
          rw [handedOver, if_pos ⟨hclone, hmem⟩]
          exact List.mem_append_left _ hp
      · intro l hl hdest hclone s hs
        cases src with
        | var _ => trivial
        | pointer base off =>
          have hmem : inMemory env.rt dest ty ∧ inMemory env.rt place ty := by
            simp only [inMemory, hloc, hl, hs.2, hdest, true_and]
            rfl
          refine known_of_placeBase hs.2 (fun p hp => hbase p ?_) hs.1
          rw [handedOver, if_pos ⟨hclone, hmem⟩]
          exact List.mem_append_right _ hp
  | discriminant v =>
    refine .seq hpre ((calls_readTmp _ _).imp (fun _ h => h) fun _ _ _ => trivial) fun op => ?_
    exact .pure fun _ _ => trivial
  | not v =>
    refine .seq hpre ((calls_newTmp _).imp (fun _ h => h) fun _ _ _ => trivial) fun tmp => ?_
    exact .seq hpre (calls_emit fun _ _ => trivial) fun _ => .pure fun _ _ => trivial
  | negate v ty => exact .seq hpre (calls_negate v ty) fun op => .pure fun _ _ => trivial
  | move v => exact .pure fun _ _ => trivial
  | binOp left op ty right =>
    refine .seq hpre (calls_binop hpre h.generated fun hop s hs => ?_) fun op =>
      .pure fun _ _ => trivial
    rw [handedOver, if_pos hop] at hbase
    exact ⟨hbase _ List.mem_cons_self s hs,
      hbase _ (List.mem_cons_of_mem _ (List.mem_singleton_self _)) s hs⟩
  | call func args sig => exact calls_call hpre (h.calls _ _ _ _ _ rfl)
  | callRuntime func args vtables sig =>
    obtain ⟨hlen, hruntime⟩ := h.runtimeCalls _ _ _ _ _ _ rfl
    refine calls_callRuntime hpre h.generated hruntime ?_ ?_
    · rw [hlen, List.length_zip]
      exact Nat.min_le_right _ _
    · intro p hp hval s hs irTy hirTy
      refine hbase (p.2.1, irTy) (List.mem_filterMap.mpr ⟨p, hp, ?_⟩) s hs
      rw [hval, hirTy]
      rfl

/-! ### Instructions -/

theorem calls_assign {dest : Place} {ty : Ty} {value : Mir.Value}
    (h : Relies S env pre (.assign dest ty value)) : Calls S pre (assign env dest ty value) Any := by
  have hpre := h.persistent
  intro s u s' hs hrun
  obtain ⟨loc, s₁, hfirst, hrun⟩ := Lower.bind_some hrun
  obtain ⟨hloc, rfl⟩ := Lower.unwrap_some hfirst
  refine Calls.seq hpre (calls_assignValue hloc h) (fun op => ?_) s u s' hs hrun
  split
  · exact calls_moveVal _ _ _
  · exact .pure fun _ _ => trivial

theorem calls_switch (examinee : Mir.Var) (branches : List (ℕ × LabelRef))
    (default : Option LabelRef) : Calls S pre (switch examinee branches default) Any := by
  refine Calls.always ?_
  unfold switch
  split
  · exact calls_emit fun _ _ => trivial
  · exact .seq persistent_true (.unwrap fun _ _ _ _ => trivial) fun last =>
      calls_emit fun _ _ => trivial

theorem calls_setDiscriminant (dest : Mir.Var) (ty : Ty) (variant : Identifier) :
    Calls S pre (setDiscriminant dest ty variant) Any := by
  refine Calls.always ?_
  unfold setDiscriminant
  split
  · exact .seq persistent_true (.unwrap fun _ _ _ _ => trivial) fun idx =>
      calls_emit fun _ _ => trivial
  · exact .unwrap fun _ _ _ _ => trivial

theorem calls_lowerReturn (returnType : Ty) (forceReferenceReturn : Bool) (var : Mir.Var) :
    Calls S pre (lowerReturn env returnType forceReferenceReturn var) Any := by
  refine Calls.always ?_
  have hboth : ∀ i, (∀ s, Accounted S s i) →
      Calls S (fun _ => True) (do emit i; emit (.ret none)) Any := fun i hi =>
    .seq persistent_true (calls_emit fun s _ => hi s) fun _ => calls_emit fun _ _ => trivial
  unfold lowerReturn
  split
  · exact calls_emit fun _ _ => trivial
  · next l hl =>
    by_cases hzero : l.isZeroSized
    · rw [if_pos hzero]
      exact calls_emit fun _ _ => trivial
    · rw [if_neg hzero]
      refine .seq persistent_true (.unwrap fun _ _ _ _ => trivial) fun isReference => ?_
      refine .seq persistent_true (.get fun _ _ => trivial) fun s => ?_
      split_ifs
      · exact hboth _ fun _ => trivial
      · exact hboth _ fun _ => trivial
      · exact calls_emit fun _ _ => trivial

theorem calls_drop {val : Place} {ty : Ty} (h : Relies S env pre (.drop val ty)) :
    Calls S pre (drop env val ty) Any := by
  have hpre := h.persistent
  have hbase := h.handedOver
  refine .bind hpre (.unwrap fun place s hplace _ => hplace) fun place => ?_
  have hpre₁ := hpre.and (persistent_const (p := location env.rt val ty = some place))
  rcases place with _ | ⟨v⟩ | ⟨base, off⟩
  · exact .pure fun _ _ => trivial
  · exact .pure fun _ _ => trivial
  · by_cases hdrop : generatesDrop env.rt ty
    · rw [handedOver, if_pos hdrop] at hbase
      refine .bind hpre₁ (calls_offset hpre₁ fun hoff s hs => ?_) fun op => ?_
      · exact known_of_placeBase hs.2 hbase hs.1 hoff
      · exact calls_callDropOf (h.generated _) fun _ s hs => hs.2
    · refine .seq hpre₁ (calls_offset_any _ _) fun op => ?_
      exact calls_callDropOf (h.generated _) fun hg => absurd hg hdrop

theorem calls_instruction {returnType : Ty} {forceReferenceReturn : Bool} {i : Mir.Instruction}
    (h : Relies S env pre i) :
    Calls S pre (instruction env returnType forceReferenceReturn i) Any := by
  cases i with
  | assign dest ty value => exact calls_assign h
  | jump lbl => exact calls_emit fun _ _ => trivial
  | switch examinee branches default => exact calls_switch _ _ _
  | setDiscriminant dest ty variant => exact calls_setDiscriminant _ _ _
  | ret var => exact calls_lowerReturn _ _ _
  | drop val ty => exact calls_drop h

theorem calls_instructions {returnType : Ty} {forceReferenceReturn : Bool}
    {is : List Mir.Instruction} (hpre : Persistent pre) (h : ∀ i ∈ is, Relies S env pre i) :
    Calls S pre (instructions env returnType forceReferenceReturn is) Any := by
  induction is with
  | nil => exact .pure fun _ _ => trivial
  | cons i is ih =>
    exact .seq hpre (calls_instruction (h i List.mem_cons_self)) fun _ =>
      ih fun j hj => h j (List.mem_cons_of_mem _ hj)

theorem calls_blocks {returnType : Ty} {forceReferenceReturn : Bool} {bs : List Mir.Block}
    (hpre : Persistent pre) (h : ∀ b ∈ bs, ∀ i ∈ b.instructions, Relies S env pre i) :
    Calls S pre (blocks env returnType forceReferenceReturn bs) Any := by
  induction bs with
  | nil => exact .pure fun _ _ => trivial
  | cons b bs ih =>
    refine .seq hpre (calls_newBlock b.label) fun _ => ?_
    refine .seq hpre (calls_instructions hpre (h b List.mem_cons_self)) fun _ => ?_
    exact ih fun c hc => h c (List.mem_cons_of_mem _ hc)

end Roto.Lir
