import RotoCompiler.Lir.ProgramCalls
import RotoCompiler.Mir.Temporaries

/-!
# The temporaries of the LIR

The lowering to the LIR counts on where the lowering to the MIR has stopped, and generated
functions count from zero. So no function of the program declares a temporary twice.
-/

namespace Roto.Lir
open Mir Numbering
open Ast (Literal BinOp)

def Var.number (v : Var) : Option ℕ :=
  match v.kind with
  | .tmp n => some n
  | _ => none

def AnyItem.scope : AnyItem → ScopeRef
  | .function f => f.scope
  | .constant c => c.scope

/-- The numbers of the temporaries of a function, and those that are declared. -/
def temporaries (scope : ScopeRef) : Counter Lowerer where
  ok s := s.functionScope = scope ∧ ∀ e ∈ s.vars, ∀ n, e.1.number = some n → e.1.scope = scope
  next s := s.tmpIdx
  entered s := s.vars.filterMap fun e => e.1.number

/-- Only new temporaries are declared. -/
abbrev Declares {α : Type} (scope : ScopeRef) (m : Lower α) : Prop :=
  Enters (temporaries scope) ∅ m

variable {rt : Rt} {env : LowerEnv} {scope : ScopeRef}

/-! ### Steps -/

/-- What leaves the variables as they are declares nothing. -/
theorem declares_still {α : Type} {m : Lower α}
    (hm : ∀ s a s', m s = some (a, s') →
      s'.functionScope = s.functionScope ∧ s'.vars = s.vars ∧ s'.tmpIdx = s.tmpIdx) :
    Declares scope m := by
  apply Enters.keeps
  intro s a s' hok h
  obtain ⟨hscope, hvars, hidx⟩ := hm s a s' h
  refine ⟨⟨hscope.trans hok.1, ?_⟩, hidx, ?_⟩
  · rw [hvars]
    exact hok.2
  · simp only [temporaries, hvars]

theorem declares_update {α : Type} {f : Lowerer → α} {g : Lowerer → Lowerer}
    (hg : ∀ s, (g s).functionScope = s.functionScope ∧ (g s).vars = s.vars ∧
      (g s).tmpIdx = s.tmpIdx) : Declares scope (fun s => some (f s, g s) : Lower α) := by
  apply declares_still
  intro s a s' h
  rw [← (Prod.mk.inj (Option.some.inj h)).2]
  exact hg s

theorem declares_pure {α : Type} (a : α) : Declares scope (pure a : Lower α) :=
  declares_update fun _ => ⟨rfl, rfl, rfl⟩

theorem declares_unwrap {α : Type} (x : Option α) : Declares scope (unwrap x) := by
  apply declares_still
  intro s a s' h
  obtain ⟨b, -, hb⟩ := Option.bind_eq_some_iff.mp (show x.bind _ = some (a, s') from h)
  rw [← (Prod.mk.inj (Option.some.inj hb)).2]
  exact ⟨rfl, rfl, rfl⟩

theorem declares_get : Declares scope (get : Lower Lowerer) :=
  declares_update fun _ => ⟨rfl, rfl, rfl⟩

theorem declares_modify {f : Lowerer → Lowerer}
    (hf : ∀ s, (f s).functionScope = s.functionScope ∧ (f s).vars = s.vars ∧
      (f s).tmpIdx = s.tmpIdx) : Declares scope (modify f : Lower Unit) :=
  declares_update hf

theorem declares_emit (i : Instruction) : Declares scope (emit i) :=
  declares_modify fun _ => ⟨rfl, rfl, rfl⟩

theorem declares_newBlock (label : LabelRef) : Declares scope (newBlock label) :=
  declares_modify fun _ => ⟨rfl, rfl, rfl⟩

theorem declares_wrapInternal : Declares scope wrapInternal :=
  declares_update fun _ => ⟨rfl, rfl, rfl⟩

theorem declares_wrapInternals (n : ℕ) : Declares scope (wrapInternals n) := by
  induction n with
  | zero => exact declares_pure []
  | succ n ih => exact declares_wrapInternal.andThen fun _ => ih.andThen fun _ => declares_pure _

/-- A new temporary, for a value or for a stack slot. -/
theorem declares_new (slot : ValueOrSlot) {m : Lower Var}
    (hm : ∀ s, m s = some (⟨s.functionScope, .tmp s.tmpIdx⟩,
      { s with
        tmpIdx := s.tmpIdx + 1
        vars := s.vars ++ [(⟨s.functionScope, .tmp s.tmpIdx⟩, slot)] })) : Declares scope m := by
  intro s v s' hok _ h
  rw [hm s] at h
  rw [← (Prod.mk.inj (Option.some.inj h)).2]
  refine ⟨⟨hok.1, ?_⟩, Nat.le_succ _, [s.tmpIdx], by simp [temporaries, Var.number],
    List.nodup_singleton _, ?_⟩
  · intro e he n hn
    rcases List.mem_append.mp he with he | he
    · exact hok.2 e he n hn
    · rw [List.mem_singleton.mp he]
      exact hok.1
  · intro n hn
    rw [List.mem_singleton.mp hn]
    exact Or.inr ⟨le_rfl, Nat.lt_succ_self _⟩

theorem declares_newTmp (ty : IrType) : Declares scope (newTmp ty) :=
  declares_new (.val ty) fun _ => rfl

theorem declares_newStackSlot (l : Layout) : Declares scope (newStackSlot l) :=
  declares_new (.stackSlot l) fun _ => rfl

theorem declares_offset (var : Var) (off : ℕ) : Declares scope (offset var off) := by
  unfold offset
  split_ifs
  · exact declares_pure var
  · exact (declares_newTmp .pointer).andThen fun new => (declares_emit _).andThen fun _ =>
      declares_pure new

theorem declares_readTmp (ptr : Var) (irTy : IrType) : Declares scope (readTmp ptr irTy) :=
  (declares_newTmp irTy).andThen fun _ => (declares_emit _).andThen fun _ => declares_pure _

theorem declares_moveVal (dest : Location) (val : Operand) (ty : Ty) :
    Declares scope (moveVal rt dest val ty) := by
  unfold moveVal
  split
  · exact declares_pure ()
  · split
    · exact declares_emit _
    · refine (declares_offset _ _).andThen fun dest => ?_
      split
      · exact (declares_unwrap _).andThen fun l => declares_emit _
      · exact declares_emit _
      · exact declares_pure ()

/-! ### Clones, drops and comparisons -/

theorem declares_callCloneFunction (src dest : Var) (ty : Ty) :
    Declares scope (callCloneFunction rt src dest ty) := by
  unfold callCloneFunction
  split_ifs
  · exact (declares_unwrap _).andThen fun l => declares_emit _
  · split
    · exact declares_emit _
    · exact (declares_emit _).andThen fun _ =>
        declares_modify fun _ => ⟨rfl, rfl, rfl⟩

theorem declares_callCloneOf (dest src : Location) (ty : Ty) :
    Declares scope (callCloneOf rt dest src ty) := by
  unfold callCloneOf
  split
  · split
    · exact declares_pure ()
    · exact declares_emit _
  · split
    · exact declares_pure ()
    · exact (declares_offset _ _).andThen fun src => declares_emit _
  · split
    · exact declares_pure ()
    · exact (declares_offset _ _).andThen fun dest => declares_emit _
  · exact (declares_offset _ _).andThen fun src => (declares_offset _ _).andThen fun dest =>
      declares_callCloneFunction src dest ty

theorem declares_cloneFields (returnVar rootVar : Var) (fields : List (ℕ × Ty)) :
    Declares scope (cloneFields rt returnVar rootVar fields) := by
  induction fields with
  | nil => exact declares_pure ()
  | cons f fields ih => exact (declares_callCloneOf _ _ _).andThen fun _ => ih

theorem declares_cloneVariants (returnVar rootVar : Var) (lbls : List LabelRef)
    (variants : List (Identifier × List Ty)) :
    Declares scope (cloneVariants rt returnVar rootVar lbls variants) := by
  induction lbls generalizing variants with
  | nil => exact declares_pure ()
  | cons lbl lbls ih =>
    cases variants with
    | nil => exact declares_pure ()
    | cons variant variants =>
      exact (declares_newBlock lbl).andThen fun _ => (declares_cloneFields _ _ _).andThen fun _ =>
        (declares_emit _).andThen fun _ => ih variants

theorem declares_switchVariants (discriminant : Operand) (lbls : List LabelRef) :
    Declares scope (switchVariants discriminant lbls) :=
  (declares_unwrap _).andThen fun _ => declares_emit _

theorem declares_generateCloneBody (ty : Ty) :
    Declares scope (generateCloneBody rt ty scope) := by
  unfold generateCloneBody
  simp only
  split
  · exact (declares_emit _).andThen fun _ => declares_emit _
  · split
    · exact declares_emit _
    · exact declares_emit _
    · exact declares_emit _
    · exact (declares_cloneFields _ _ _).andThen fun _ => declares_emit _
    · exact declares_wrapInternal.andThen fun _ => (declares_wrapInternals _).andThen fun lbls =>
        (declares_offset _ _).andThen fun _ => (declares_readTmp _ _).andThen fun _ =>
        (declares_emit _).andThen fun _ => (declares_switchVariants _ _).andThen fun _ =>
        declares_cloneVariants _ _ _ _
    · exact (declares_unwrap _).andThen fun _ => (declares_emit _).andThen fun _ => declares_emit _
    · exact declares_unwrap _

theorem declares_callDropOf (var : Operand) (ty : Ty) : Declares scope (callDropOf rt var ty) := by
  unfold callDropOf
  split_ifs
  · exact declares_pure ()
  · split
    · exact declares_emit _
    · exact (declares_emit _).andThen fun _ =>
        declares_modify fun _ => ⟨rfl, rfl, rfl⟩

theorem declares_dropFields (rootVar : Var) (fields : List (ℕ × Ty)) :
    Declares scope (dropFields rt rootVar fields) := by
  induction fields with
  | nil => exact declares_pure ()
  | cons f fields ih =>
    exact (declares_offset _ _).andThen fun _ => (declares_callDropOf _ _).andThen fun _ => ih

theorem declares_dropVariants (rootVar : Var) (lbls : List LabelRef)
    (variants : List (Identifier × List Ty)) :
    Declares scope (dropVariants rt rootVar lbls variants) := by
  induction lbls generalizing variants with
  | nil => exact declares_pure ()
  | cons lbl lbls ih =>
    cases variants with
    | nil => exact declares_pure ()
    | cons variant variants =>
      exact (declares_newBlock lbl).andThen fun _ => (declares_dropFields _ _).andThen fun _ =>
        (declares_emit _).andThen fun _ => ih variants

theorem declares_generateDropBody (ty : Ty) : Declares scope (generateDropBody rt ty scope) := by
  unfold generateDropBody
  simp only
  split
  · exact (declares_emit _).andThen fun _ => declares_emit _
  · split
    · exact declares_emit _
    · exact declares_emit _
    · exact declares_emit _
    · exact declares_emit _
    · exact (declares_dropFields _ _).andThen fun _ => declares_emit _
    · exact declares_wrapInternal.andThen fun _ => (declares_wrapInternals _).andThen fun lbls =>
        (declares_offset _ _).andThen fun _ => (declares_readTmp _ _).andThen fun _ =>
        (declares_switchVariants _ _).andThen fun _ => declares_dropVariants _ _ _
    · exact declares_unwrap _

theorem declares_emitNot (negated : Bool) (dest : Var) : Declares scope (emitNot negated dest) := by
  unfold emitNot
  split_ifs
  · exact declares_emit _
  · exact declares_pure ()

theorem declares_callEqOf (negated : Bool) (left right : Operand) (ty : Ty) :
    Declares scope (callEqOf rt negated left right ty) := by
  unfold callEqOf
  split
  · exact declares_pure _
  · refine (declares_newTmp .bool).andThen fun dest => ?_
    split
    · exact (declares_emit _).andThen fun _ => (declares_emitNot _ _).andThen fun _ =>
        declares_pure _
    · exact (declares_emit _).andThen fun _ =>
        Enters.andThen (declares_modify fun _ => ⟨rfl, rfl, rfl⟩) fun _ =>
        (declares_emitNot _ _).andThen fun _ => declares_pure _
  · exact (declares_newTmp .bool).andThen fun _ => (declares_emit _).andThen fun _ =>
      declares_pure _
  · exact (declares_newTmp .bool).andThen fun _ => (declares_emit _).andThen fun _ =>
      declares_pure _
  · exact (declares_newTmp .bool).andThen fun _ => (declares_emit _).andThen fun _ =>
      declares_pure _

theorem declares_callEqByPtr (leftPtr rightPtr : Var) (ty : Ty) :
    Declares scope (callEqByPtr rt leftPtr rightPtr ty) := by
  unfold callEqByPtr
  split
  · exact declares_pure _
  · exact declares_callEqOf _ _ _ _
  · exact (declares_unwrap _).andThen fun irTy => (declares_readTmp _ _).andThen fun left =>
      (declares_readTmp _ _).andThen fun right => declares_callEqOf _ _ _ _

theorem declares_eqFields (leftBase rightBase : Var) (falseLbl : LabelRef) (lbls : List LabelRef)
    (fields : List (Option ℕ × Ty)) :
    Declares scope (eqFields rt leftBase rightBase falseLbl lbls fields) := by
  induction fields generalizing lbls with
  | nil =>
    match lbls with
    | [] => exact declares_pure ()
    | [_] => exact declares_pure ()
    | _ :: _ :: _ => exact declares_pure ()
  | cons f fields ih =>
    match lbls with
    | [] => exact declares_pure ()
    | [_] => exact declares_pure ()
    | lbl :: next :: lbls =>
      refine (declares_newBlock lbl).andThen fun _ => ?_
      obtain ⟨off, ty⟩ := f
      cases off with
      | none => exact (declares_emit _).andThen fun _ => ih _
      | some off =>
        have hfield : Declares scope (eqField rt leftBase rightBase off ty) :=
          (declares_offset _ _).andThen fun left => (declares_offset _ _).andThen fun right =>
            declares_callEqByPtr left right ty
        exact hfield.andThen fun out => (declares_emit _).andThen fun _ => ih _

theorem declares_returnBool (lbl : LabelRef) (b : Bool) : Declares scope (returnBool lbl b) :=
  (declares_newBlock lbl).andThen fun _ => declares_emit _

theorem declares_eqVariants (leftBase rightBase : Var) (falseLbl : LabelRef)
    (lbls : List LabelRef) (variants : List (Identifier × List Ty)) :
    Declares scope (eqVariants rt leftBase rightBase falseLbl lbls variants) := by
  induction lbls generalizing variants with
  | nil => exact declares_pure ()
  | cons lbl lbls ih =>
    cases variants with
    | nil => exact declares_pure ()
    | cons variant variants =>
      have hvariant : Declares scope (eqVariant rt leftBase rightBase falseLbl lbl variant.2) := by
        refine (declares_wrapInternals _).andThen fun lbls => ?_
        split
        · exact declares_emit _
        · exact (declares_newBlock lbl).andThen fun _ => (declares_unwrap _).andThen fun _ =>
            (declares_emit _).andThen fun _ => (declares_eqFields _ _ _ _ _).andThen fun _ =>
            (declares_unwrap _).andThen fun _ => declares_returnBool _ _
      exact hvariant.andThen fun _ => ih variants

theorem declares_compare (leftPtr rightPtr : Var) (ty : Ty) :
    Declares scope (generateIntEq rt leftPtr rightPtr ty) ∧
      Declares scope (generateFloatEq rt leftPtr rightPtr ty) := by
  constructor
  all_goals
    exact (declares_unwrap _).andThen fun irTy => (declares_readTmp _ _).andThen fun left =>
      (declares_readTmp _ _).andThen fun right => (declares_newTmp _).andThen fun dest =>
      (declares_emit _).andThen fun _ => declares_emit _

theorem declares_generateEqRuntime (leftPtr rightPtr : Var) (ty : Ty) :
    Declares scope (generateEqRuntime rt leftPtr rightPtr ty) :=
  (declares_unwrap _).andThen fun _ => (declares_newTmp _).andThen fun _ =>
    (declares_emit _).andThen fun _ => declares_emit _

theorem declares_generateEqBody (ty : Ty) : Declares scope (generateEqBody rt ty scope) := by
  unfold generateEqBody
  simp only
  split
  · exact declares_emit _
  · exact declares_emit _
  · exact declares_wrapInternal.andThen fun _ => (declares_wrapInternals _).andThen fun lbls =>
      declares_wrapInternal.andThen fun _ => (declares_unwrap _).andThen fun _ =>
      (declares_emit _).andThen fun _ => (declares_eqFields _ _ _ _ _).andThen fun _ =>
      (declares_unwrap _).andThen fun _ => (declares_returnBool _ _).andThen fun _ =>
      declares_returnBool _ _
  · exact declares_wrapInternal.andThen fun _ => declares_wrapInternal.andThen fun _ =>
      declares_wrapInternal.andThen fun _ => (declares_wrapInternals _).andThen fun lbls =>
      (declares_readTmp _ _).andThen fun _ => (declares_readTmp _ _).andThen fun _ =>
      (declares_newTmp _).andThen fun _ => (declares_emit _).andThen fun _ =>
      (declares_emit _).andThen fun _ => (declares_newBlock _).andThen fun _ =>
      (declares_emit _).andThen fun _ => (declares_eqVariants _ _ _ _ _).andThen fun _ =>
      declares_returnBool _ _
  · exact declares_generateEqRuntime _ _ _
  · exact (declares_compare _ _ _).2
  · exact declares_generateEqRuntime _ _ _
  · exact declares_generateEqRuntime _ _ _
  · exact declares_generateEqRuntime _ _ _
  · exact (declares_compare _ _ _).1
  · exact declares_generateEqRuntime _ _ _

/-! ### Calls of registered functions -/

theorem declares_vtable (tyRef : Ty) : Declares scope (vtable rt tyRef) := by
  have haddress {needed : Bool} {name : FunName} {generate : Lowerer → Lowerer}
      (h : Declares scope (modify generate : Lower Unit)) :
      Declares scope (functionAddress needed name generate) := by
    unfold functionAddress
    split_ifs
    · exact declares_pure _
    · exact (declares_newTmp _).andThen fun _ => (declares_emit _).andThen fun _ =>
        h.andThen fun _ => declares_pure _
  have hfield (base : Var) (val : Operand) (builder : LayoutBuilder) :
      Declares scope (vtableField base val builder) :=
    (declares_offset _ _).andThen fun _ => (declares_emit _).andThen fun _ => declares_pure _
  refine (haddress ?_).andThen fun _ => (haddress ?_).andThen fun _ => (haddress ?_).andThen
    fun _ => (declares_newStackSlot _).andThen fun base => (hfield _ _ _).andThen fun _ =>
    (hfield _ _ _).andThen fun _ => (hfield _ _ _).andThen fun _ => (hfield _ _ _).andThen fun _ =>
    (hfield _ _ _).andThen fun _ => declares_pure _
  all_goals exact declares_modify fun _ => ⟨rfl, rfl, rfl⟩

theorem declares_vtableArgs (i : ℕ) (vtables : List Ty) :
    Declares scope (vtableArgs rt i vtables) := by
  induction vtables generalizing i with
  | nil => exact declares_pure []
  | cons tyRef vtables ih =>
    exact (declares_vtable tyRef).andThen fun _ => (ih (i + 1)).andThen fun _ => declares_pure _

theorem declares_runtimeArgs (dynVals : List Bool) (tys : List Ty) (i : ℕ)
    (mirArgs : List Mir.Var) : Declares scope (runtimeArgs rt dynVals tys i mirArgs) := by
  induction mirArgs generalizing i with
  | nil => exact declares_pure []
  | cons arg mirArgs ih =>
    have harg (dynVal : Bool) (ty : Ty) : Declares scope (runtimeArg rt i dynVal arg ty) := by
      unfold runtimeArg
      split
      · split
        · exact declares_pure none
        · exact declares_pure _
      · split
        · exact declares_pure none
        · exact (declares_newStackSlot _).andThen fun _ => (declares_moveVal _ _ _).andThen fun _ =>
            declares_pure _
    exact (declares_unwrap _).andThen fun ty => (declares_unwrap _).andThen fun dynVal =>
      (harg dynVal ty).andThen fun _ => (ih (i + 1)).andThen fun _ => declares_pure _

theorem declares_callRuntime (funcRef : ℕ) (dynVals : List Bool) (mirArgs : List Mir.Var)
    (vtables : List Ty) (mirSignature : Mir.Signature) :
    Declares scope (callRuntime rt funcRef dynVals mirArgs vtables mirSignature) := by
  refine (declares_newStackSlot _).andThen fun outPtr => (declares_vtableArgs _ _).andThen
    fun tables => (declares_runtimeArgs _ _ _ _).andThen fun rest => ?_
  refine Enters.andThen (declares_modify fun _ => ⟨rfl, rfl, rfl⟩) fun _ => ?_
  refine (declares_emit _).andThen fun _ => ?_
  split
  · exact declares_pure none
  · exact declares_pure _
  · split
    · exact declares_pure none
    · exact (declares_newTmp _).andThen fun _ => (declares_emit _).andThen fun _ => declares_pure _

/-! ### Values and instructions -/

theorem declares_literal (lit : Literal) (ty : Ty) : Declares scope (literal env lit ty) := by
  cases lit with
  | string s =>
    exact (declares_newStackSlot _).andThen fun _ => (declares_emit _).andThen fun _ =>
      declares_pure _
  | ipAddress addr =>
    exact (declares_newStackSlot _).andThen fun _ => (declares_emit _).andThen fun _ =>
      declares_pure _
  | integer x suffix => exact (declares_unwrap _).andThen fun _ => declares_pure _
  | float bits suffix =>
    unfold literal
    simp only
    split
    · exact declares_pure _
    · exact declares_pure _
    · exact declares_unwrap _
  | char c => exact declares_pure _
  | asn n => exact declares_pure _
  | bool b => exact declares_pure _
  | unit => exact declares_pure _

theorem declares_emitTmp (irTy : IrType) (i : Var → Option Instruction) :
    Declares scope (emitTmp irTy i) :=
  (declares_newTmp irTy).andThen fun _ => (declares_unwrap _).andThen fun _ =>
    (declares_emit _).andThen fun _ => declares_pure _

theorem declares_binop (left : Mir.Var) (op : BinOp) (ty : Ty) (right : Mir.Var) :
    Declares scope (binop env left op ty right) := by
  unfold binop
  simp only
  split_ifs
  · exact declares_callEqOf _ _ _ _
  · exact declares_callEqOf _ _ _ _
  · split
    · split
      · exact declares_emitTmp _ _
      · exact (declares_unwrap _).andThen fun _ => declares_emitTmp _ _
    · split
      · exact declares_emitTmp _ _
      · exact (declares_unwrap _).andThen fun _ => declares_emitTmp _ _
    · exact (declares_unwrap _).andThen fun _ => declares_emitTmp _ _
    · exact declares_unwrap _

theorem declares_call (func : ResolvedName) (args : List Mir.Var) (mirSignature : Mir.Signature) :
    Declares scope (call env func args mirSignature) := by
  have hresult : Declares scope (callResult env mirSignature.returnType) := by
    unfold callResult
    split
    · exact (declares_unwrap _).andThen fun _ => (declares_newStackSlot _).andThen fun _ =>
        declares_pure _
    · split
      · exact declares_pure _
      · exact (declares_newTmp _).andThen fun _ => declares_pure _
    · exact declares_pure _
  exact hresult.andThen fun _ => declares_get.andThen fun _ => (declares_emit _).andThen fun _ =>
    declares_pure _

theorem declares_assignValue (dest : Option Location) (ty : Ty) (value : Mir.Value) :
    Declares scope (assignValue env dest ty value) := by
  have hclone (src : Location) (ty : Ty) : Declares scope (cloneInto env dest src ty) := by
    cases dest with
    | none => exact declares_pure ()
    | some dest => exact declares_callCloneOf dest src ty
  cases value with
  | const lit ty => exact declares_literal lit ty
  | constant name ty =>
    exact (declares_newTmp _).andThen fun _ => (declares_emit _).andThen fun _ =>
      (hclone _ _).andThen fun _ => declares_pure none
  | context x =>
    exact declares_get.andThen fun _ => (hclone _ _).andThen fun _ => declares_pure none
  | discriminant v => exact (declares_readTmp _ _).andThen fun _ => declares_pure _
  | not v =>
    exact (declares_newTmp _).andThen fun _ => (declares_emit _).andThen fun _ => declares_pure _
  | negate v ty =>
    have hnegate : Declares scope (negate env.rt v ty) :=
      (declares_unwrap _).andThen fun _ => (declares_newTmp _).andThen fun _ =>
        (declares_emit _).andThen fun _ => declares_pure _
    exact hnegate.andThen fun _ => declares_pure _
  | move v => exact declares_pure _
  | clone place =>
    refine (declares_unwrap _).andThen fun src => ?_
    split
    · exact declares_pure none
    · exact (hclone _ _).andThen fun _ => declares_pure none
  | binOp left op ty right => exact (declares_binop _ _ _ _).andThen fun _ => declares_pure _
  | call func args mirSignature => exact declares_call _ _ _
  | callRuntime funcRef args vtables mirSignature => exact declares_callRuntime _ _ _ _ _

theorem declares_instruction (returnType : Ty) (forceReferenceReturn : Bool)
    (i : Mir.Instruction) :
    Declares scope (instruction env returnType forceReferenceReturn i) := by
  cases i with
  | assign dest ty value =>
    refine (declares_unwrap _).andThen fun dest => (declares_assignValue _ _ _).andThen fun op => ?_
    split
    · exact declares_moveVal _ _ _
    · exact declares_pure ()
  | jump lbl => exact declares_emit _
  | switch examinee branches default =>
    cases default with
    | some default => exact declares_emit _
    | none => exact (declares_unwrap _).andThen fun _ => declares_emit _
  | setDiscriminant dest ty variant =>
    change Declares scope (setDiscriminant dest ty variant)
    unfold setDiscriminant
    split
    · exact (declares_unwrap _).andThen fun _ => declares_emit _
    · exact declares_unwrap _
  | ret var =>
    change Declares scope (lowerReturn env returnType forceReferenceReturn var)
    unfold lowerReturn
    split
    · exact declares_emit _
    · split
      · exact declares_emit _
      · refine (declares_unwrap _).andThen fun isReference => declares_get.andThen fun s => ?_
        split
        · exact (declares_emit _).andThen fun _ => declares_emit _
        · split
          · exact (declares_emit _).andThen fun _ => declares_emit _
          · exact declares_emit _
  | drop val ty =>
    refine (declares_unwrap _).andThen fun place => ?_
    split
    · exact declares_pure ()
    · exact declares_pure ()
    · exact (declares_offset _ _).andThen fun _ => declares_callDropOf _ _

theorem declares_instructions (returnType : Ty) (forceReferenceReturn : Bool)
    (is : List Mir.Instruction) :
    Declares scope (instructions env returnType forceReferenceReturn is) := by
  induction is with
  | nil => exact declares_pure ()
  | cons i is ih => exact (declares_instruction _ _ i).andThen fun _ => ih

theorem declares_blocks (returnType : Ty) (forceReferenceReturn : Bool) (bs : List Mir.Block) :
    Declares scope (blocks env returnType forceReferenceReturn bs) := by
  induction bs with
  | nil => exact declares_pure ()
  | cons b bs ih =>
    exact (declares_newBlock _).andThen fun _ => (declares_instructions _ _ _).andThen fun _ => ih

/-! ### Functions -/

/-- The temporaries of a function are declared in its scope, and once. -/
structure AnyItem.Numbered (f : AnyItem) : Prop where
  scope : ∀ e ∈ f.vars, ∀ n, e.1.number = some n → e.1.scope = f.scope
  nodup : (f.vars.filterMap fun e => e.1.number).Nodup

/-- The temporaries of the function are those of the item that it is made of, and later ones. -/
structure AnyItem.Continues (item : Mir.Item) (f : AnyItem) : Prop where
  name : f.name = .item item.name
  scope : f.scope = item.scope
  new : ∀ e ∈ f.vars, ∀ n, e.1.number = some n →
    (∃ p ∈ item.vars, p.1.number = some n) ∨ item.tmpIdx ≤ n

/-- A function from the first state of its lowerer. -/
theorem numbered_of_declares {m : Lower Unit} {s s' : Lowerer} {f : AnyItem}
    (h : Declares f.scope m) (hok : (temporaries f.scope).ok s)
    (hnodup : ((temporaries f.scope).entered s).Nodup)
    (hbelow : ∀ n ∈ (temporaries f.scope).entered s, n < s.tmpIdx) (hm : m s = some ((), s'))
    (hvars : f.vars = s'.vars) :
    f.Numbered ∧ ∀ e ∈ f.vars, ∀ n, e.1.number = some n →
      (∃ e' ∈ s.vars, e'.1.number = some n) ∨ s.tmpIdx ≤ n := by
  obtain ⟨hok', hnodup', -, hnew⟩ := h.run hok hnodup hbelow hm
  refine ⟨⟨?_, ?_⟩, ?_⟩
  · rw [hvars]
    exact hok'.2
  · rw [hvars]
    exact hnodup'
  · intro e he n hn
    rw [hvars] at he
    rcases hnew n (List.mem_filterMap.mpr ⟨e, he, hn⟩) with h | h
    · exact Or.inl (List.mem_filterMap.mp h)
    · exact Or.inr h

theorem numbered_generateFunction {name : FunName} {irSignature : Signature}
    {b : ScopeRef → Lower Unit} (hbody : ∀ scope, Declares scope (b scope))
    {ctx : LowerCtx} {r : Item × LowerCtx}
    (h : generateFunction name irSignature b ctx = some r) :
    (AnyItem.function r.1).Numbered ∧ r.1.name = name := by
  obtain ⟨⟨u, s⟩, hs, h⟩ := Option.bind_eq_some_iff.mp h
  rw [← Option.some.inj h]
  have hok : (temporaries ctx.scopes).ok ctx.lowerer := by
    refine ⟨rfl, fun e he => ?_⟩
    cases he
  have hbelow : ∀ n ∈ (temporaries ctx.scopes).entered ctx.lowerer, n < ctx.lowerer.tmpIdx := by
    simp [temporaries, LowerCtx.lowerer]
  refine ⟨?_, rfl⟩
  exact And.left (numbered_of_declares (hbody ctx.scopes) hok List.nodup_nil hbelow hs rfl)

theorem numbered_work {W : Worklist Ty Item LowerCtx} {name : Ty → FunName}
    (hname : ∀ ty ident, name ty ≠ .item ident) (hlawful : W.Lawful)
    (hW : ∀ ty ctx r, W.process ty ctx = some r →
      (AnyItem.function r.1).Numbered ∧ r.1.name = name ty) {fuel : ℕ}
    {ctx ctx' : LowerCtx} {fs : List Item} (h : W.run fuel [] ctx = some (fs, ctx')) :
    ∀ f ∈ fs, (AnyItem.function f).Numbered ∧ ∀ ident, f.name ≠ .item ident := by
  obtain ⟨keys, hmakes, -⟩ := Worklist.run_makes hlawful h
  intro f hf
  obtain ⟨ty, -, ctx₁, ctx₂, hprocess, -⟩ := exists_of_forall₂ hmakes hf
  have hf := hW ty ctx₁ (f, ctx₂) hprocess
  refine ⟨hf.1, fun ident heq => ?_⟩
  exact hname ty ident (hf.2.symm.trans heq)

theorem numbered_generated {ctx₀ ctx₁ ctx₂ ctx₃ : LowerCtx} {clones drops eqs : List Item}
    (hclones : generateClones rt ctx₀ = some (clones, ctx₁))
    (hdrops : generateDrops rt ctx₁ = some (drops, ctx₂))
    (heqs : generateEqs rt ctx₂ = some (eqs, ctx₃)) :
    ∀ f ∈ clones ++ drops ++ eqs,
      (AnyItem.function f).Numbered ∧ ∀ ident, f.name ≠ .item ident := by
  have hclones' := numbered_work (by simp) generator_clones.lawful (fun ty _ _ h =>
    numbered_generateFunction (b := generateCloneBody rt ty)
      (fun _ => declares_generateCloneBody ty) h) hclones
  have hdrops' := numbered_work (by simp) generator_drops.lawful (fun ty _ _ h =>
    numbered_generateFunction (b := generateDropBody rt ty)
      (fun _ => declares_generateDropBody ty) h) hdrops
  have heqs' := numbered_work (by simp) generator_eqs.lawful (fun ty _ _ h =>
    numbered_generateFunction (b := generateEqBody rt ty)
      (fun _ => declares_generateEqBody ty) h) heqs
  intro f hf
  rcases List.mem_append.mp hf with hf | hf
  · rcases List.mem_append.mp hf with hf | hf
    · exact hclones' f hf
    · exact hdrops' f hf
  · exact heqs' f hf

/-! ### Items -/

theorem number_lowerVar (v : Mir.Var) : (lowerVar v).number = v.number := by
  obtain ⟨scope, kind⟩ := v
  cases kind with
  | explicit ident => rfl
  | tmp idx => rfl

/-- No temporary is declared that the item does not declare. -/
theorem numbers_itemVars (params : List Mir.Var) (item : Mir.Item) :
    List.Sublist ((itemVars env params item).filterMap fun e => e.1.number)
      (item.vars.filterMap fun p => p.1.number) := by
  unfold itemVars
  induction item.vars with
  | nil => exact List.Sublist.slnil
  | cons p vars ih =>
    rw [List.filterMap_cons]
    cases hvar : itemVar env params p.1 p.2 with
    | none => exact ih.trans ((List.sublist_cons_self p vars).filterMap _)
    | some e =>
      simp only
      rw [List.filterMap_cons, List.filterMap_cons, itemVar_key hvar, number_lowerVar]
      cases p.1.number with
      | none => exact ih
      | some n => exact ih.cons_cons n

theorem itemVars_temporary {params : List Mir.Var} {item : Mir.Item} {e : Var × ValueOrSlot}
    (he : e ∈ itemVars env params item) {n : ℕ} (hn : e.1.number = some n) :
    ∃ p ∈ item.vars, p.1.number = some n ∧ e.1.scope = p.1.scope := by
  obtain ⟨p, hp, hvar⟩ := List.mem_filterMap.mp he
  have hkey := itemVar_key hvar
  refine ⟨p, hp, ?_, ?_⟩
  · rw [← number_lowerVar, ← hkey]
    exact hn
  · rw [hkey]
    rfl

theorem numbered_itemBlocks {ctx : LowerCtx} {item : Mir.Item} {params : List Mir.Var}
    {returnType : Ty} {forceReferenceReturn : Bool} {s : Lowerer} {f : AnyItem}
    (hitem : item.Numbered)
    (h : itemBlocks env ctx item params returnType forceReferenceReturn = some s)
    (hname : f.name = .item item.name) (hscope : f.scope = item.scope) (hvars : f.vars = s.vars) :
    f.Numbered ∧ f.Continues item := by
  obtain ⟨b, bs, s₁, -, hfirst, hrest⟩ := itemBlocks_some h
  have hbody : Declares item.scope (do
      instructions env returnType forceReferenceReturn b.instructions
      blocks env returnType forceReferenceReturn bs) :=
    (declares_instructions _ _ _).andThen fun _ => declares_blocks _ _ _
  have hrun : (do
      instructions env returnType forceReferenceReturn b.instructions
      blocks env returnType forceReferenceReturn bs : Lower Unit)
      (ctx.itemLowerer item b.label (itemVars env params item)) = some ((), s) :=
    Option.bind_eq_some_iff.mpr ⟨((), s₁), hfirst, hrest⟩
  rw [← hscope] at hbody
  have hok : (temporaries f.scope).ok
      (ctx.itemLowerer item b.label (itemVars env params item)) := by
    refine ⟨hscope.symm, fun e he n hn => ?_⟩
    obtain ⟨p, hp, hnumber, heq⟩ := itemVars_temporary he hn
    rw [heq, hscope]
    exact hitem.scope p hp n hnumber
  have hbelow : ∀ n ∈ (itemVars env params item).filterMap fun e => e.1.number,
      n < item.tmpIdx := by
    intro n hn
    obtain ⟨e, he, hn⟩ := List.mem_filterMap.mp hn
    obtain ⟨p, hp, hnumber, -⟩ := itemVars_temporary he hn
    exact hitem.below p hp n hnumber
  obtain ⟨hnumbered, hnew⟩ := numbered_of_declares hbody hok
    (hitem.nodup.sublist (numbers_itemVars params item)) hbelow hrun hvars
  refine ⟨hnumbered, hname, hscope, fun e he n hn => ?_⟩
  rcases hnew e he n hn with ⟨e', he', hn'⟩ | h
  · obtain ⟨p, hp, hnumber, -⟩ := itemVars_temporary he' hn'
    exact Or.inl ⟨p, hp, hnumber⟩
  · exact Or.inr h

theorem numbered_item {ctx : LowerCtx} {i : Mir.Item} {r : Option AnyItem × LowerCtx}
    (hi : i.Numbered) (h : item env ctx i = some r) :
    ∀ f ∈ r.1, f.Numbered ∧ f.Continues i := by
  unfold item at h
  split at h
  · obtain ⟨s, hs, h⟩ := Option.bind_eq_some_iff.mp h
    rw [← Option.some.inj h]
    intro f hf
    rw [← Option.some.inj hf]
    exact numbered_itemBlocks hi hs rfl rfl rfl
  · split at h
    · cases h
    · rw [← Option.some.inj h]
      intro f hf
      cases hf
    · obtain ⟨s, hs, h⟩ := Option.bind_eq_some_iff.mp h
      rw [← Option.some.inj h]
      intro f hf
      rw [← Option.some.inj hf]
      exact numbered_itemBlocks hi hs rfl rfl rfl

theorem numbered_items {is : List Mir.Item} {ctx : LowerCtx} {r : List AnyItem × LowerCtx}
    (his : ∀ i ∈ is, i.Numbered) (h : items env ctx is = some r) :
    ∀ f ∈ r.1, f.Numbered ∧ ∃ i ∈ is, f.Continues i := by
  induction is generalizing ctx r with
  | nil =>
    rw [← Option.some.inj h]
    intro f hf
    cases hf
  | cons i is ih =>
    obtain ⟨⟨f, ctx₁⟩, hf, h⟩ := Option.bind_eq_some_iff.mp h
    obtain ⟨⟨fs, ctx₂⟩, hfs, h⟩ := Option.bind_eq_some_iff.mp h
    have hhead := numbered_item (his i List.mem_cons_self) hf
    have htail := ih (fun j hj => his j (List.mem_cons_of_mem _ hj)) hfs
    rw [← Option.some.inj h]
    intro g hg
    rcases List.mem_append.mp hg with hg | hg
    · have hg := hhead g (Option.mem_toList.mp hg)
      exact ⟨hg.1, i, List.mem_cons_self, hg.2⟩
    · obtain ⟨hnumbered, j, hj, hcontinues⟩ := htail g hg
      exact ⟨hnumbered, j, List.mem_cons_of_mem _ hj, hcontinues⟩

theorem numbered_program {ctx : LowerCtx} {mir : List Mir.Item} {L : LirProgram}
    (hmir : ∀ i ∈ mir, i.Numbered) (h : program env ctx mir = some L) :
    ∀ f ∈ L.functions, f.Numbered ∧
      ∀ ident, f.name = .item ident → ∃ i ∈ mir, f.Continues i := by
  obtain ⟨⟨fs, ctx₀⟩, hfs, h⟩ := Option.bind_eq_some_iff.mp h
  obtain ⟨⟨clones, ctx₁⟩, hclones, h⟩ := Option.bind_eq_some_iff.mp h
  obtain ⟨⟨drops, ctx₂⟩, hdrops, h⟩ := Option.bind_eq_some_iff.mp h
  obtain ⟨⟨eqs, ctx₃⟩, heqs, h⟩ := Option.bind_eq_some_iff.mp h
  rw [← Option.some.inj h]
  intro f hf
  rcases List.mem_append.mp hf with hf | hf
  · obtain ⟨g, hg, rfl⟩ := List.mem_map.mp hf
    have hg := numbered_generated hclones hdrops heqs g hg
    exact ⟨hg.1, fun ident heq => absurd heq (hg.2 ident)⟩
  · have hf := numbered_items hmir hfs f hf
    exact ⟨hf.1, fun _ _ => hf.2⟩

/-! ### Programs -/

/-- Dead code elimination only changes the blocks. -/
theorem numbered_eliminated {fuel : ℕ} {is is' : List Mir.Item} (his : ∀ i ∈ is, i.Numbered)
    (h : eliminateDeadCode fuel is = some is') : ∀ i ∈ is', i.Numbered := by
  unfold eliminateDeadCode at h
  induction is generalizing is' with
  | nil =>
    rw [← Option.some.inj h]
    intro i hi
    cases hi
  | cons i is ih =>
    rw [List.mapM_cons] at h
    obtain ⟨i', hi', h⟩ := Option.bind_eq_some_iff.mp h
    obtain ⟨rest, hrest, h⟩ := Option.bind_eq_some_iff.mp h
    obtain ⟨entry, -, hi'⟩ := Option.bind_eq_some_iff.mp hi'
    obtain ⟨⟨state, bs⟩, -, hi'⟩ := Option.bind_eq_some_iff.mp hi'
    have hi := his i List.mem_cons_self
    rw [← Option.some.inj h, ← Option.some.inj hi']
    intro j hj
    rcases List.mem_cons.mp hj with rfl | hj
    · exact ⟨hi.scope, hi.nodup, hi.below⟩
    · exact ih (fun k hk => his k (List.mem_cons_of_mem _ hk)) hrest j hj

/-- From the tree of a program to the LIR no function declares a temporary twice, and what the
LIR lowerer adds comes after all temporaries of the item. -/
theorem lowered_temporaries {menv : Mir.LowerEnv} {ds : List ItemDeclaration}
    {order : List ResolvedName} {store : LabelStore}
    {r : List Mir.Item × LabelStore} {fuel : ℕ} {mir : List Mir.Item} {ctx : LowerCtx}
    {L : LirProgram} (htree : Lowering.tree menv ds order store = some r)
    (hmir : eliminateDeadCode fuel r.1 = some mir) (h : program env ctx mir = some L) :
    (∀ i ∈ mir, i.Numbered) ∧ ∀ f ∈ L.functions, f.Numbered ∧
      ∀ ident, f.name = .item ident → ∃ i ∈ mir, f.Continues i := by
  have hnumbered := numbered_eliminated (Lowering.numbered_tree htree) hmir
  exact ⟨hnumbered, numbered_program hnumbered h⟩

theorem flip_eliminated : (eliminateDeadCode 11 ((Lowering.tree Lowering.switchEnv
    [Lowering.flip Lowering.elseArm] [⟨0, "flip"⟩] []).get Lowering.flip_lowered).1).isSome =
    true := by
  decide +kernel

theorem flip_program : (program tokenEnv (LowerCtx.new 13 1)
    (Option.get _ flip_eliminated)).isSome = true := by
  decide +kernel

theorem lowered_temporaries_flip : ∃ r mir L,
    Lowering.tree Lowering.switchEnv [Lowering.flip Lowering.elseArm] [⟨0, "flip"⟩] [] = some r ∧
    eliminateDeadCode 11 r.1 = some mir ∧ program tokenEnv (LowerCtx.new 13 1) mir = some L ∧
    (mir.map fun i => i.vars.filterMap fun p => p.1.number) = [[0, 2, 4, 5, 6, 3]] ∧
    (L.functions.map fun f => f.vars.filterMap fun e => e.1.number) = [[0, 2, 7]] ∧
    (∀ i ∈ mir, i.Numbered) ∧ ∀ f ∈ L.functions, f.Numbered ∧
      ∀ ident, f.name = .item ident → ∃ i ∈ mir, f.Continues i := by
  have hr := (Option.some_get Lowering.flip_lowered).symm
  have hmir := (Option.some_get flip_eliminated).symm
  have hL := (Option.some_get flip_program).symm
  exact ⟨_, _, _, hr, hmir, hL, by decide +kernel, by decide +kernel,
    lowered_temporaries hr hmir hL⟩

end Roto.Lir
