import RotoCompiler.Lir.Emission
import RotoCompiler.Lir.Items

/-!
# Calls when they are emitted

What is known of a call as soon as it is emitted: the function that is called is one that will
be there, and it gets the arguments that its signature asks for.
-/

namespace Roto.Lir
open Mir

/-! ### Types of operands -/

def ValueOrSlot.irType : ValueOrSlot → IrType
  | .val ty => ty
  | .stackSlot _ => .pointer

/-- The type of an operand: the context and the out pointer are pointers, and any other variable
is declared or a parameter. -/
def operandType (params : Var → Option IrType) (vars : List (Var × ValueOrSlot)) :
    Operand → Option IrType
  | .value v => some v.ty
  | .place v =>
    if v.kind = .context ∨ v.kind = .ret then some .pointer
    else ((vars.lookup v).map ValueOrSlot.irType).or (params v)

/-- A call passes what a signature asks for. -/
structure Passes (type : Operand → Option IrType) (dest : Option (Var × IrType))
    (ctx : Option Operand) (args : List Operand) (returnPtr : Option Var) (sig : Signature) :
    Prop where
  args : args.map type = sig.parameters.map fun p => some p.2
  context : ctx.map type = if sig.context then some (some .pointer) else none
  returnPtr : returnPtr.map (fun p => type (.place p)) =
    if sig.returnPtr then some (some .pointer) else none
  result : dest.map (·.2) = sig.returnType

/-- The signatures of the generated functions. -/
def generatedSignature : FunName → Option Signature
  | .item _ => none
  | .generatedClone _ => some ⟨[("val", .pointer)], false, true, none⟩
  | .generatedDrop _ => some ⟨[("val", .pointer)], false, false, none⟩
  | .generatedEq _ => some ⟨[("left", .pointer), ("right", .pointer)], false, false, some .bool⟩

/-! ### Later states -/

def Lowerer.emitted (s : Lowerer) : List Instruction :=
  s.blocks.flatMap Block.instructions ++ s.instructions

/-- The temporaries to come are not declared. -/
def Lowerer.Fresh (s : Lowerer) : Prop := ∀ e ∈ s.vars, ∀ k, e.1.kind = .tmp k → k < s.tmpIdx

/-- A function is one that will be generated. -/
def Lowerer.queued (s : Lowerer) : FunName → Prop
  | .item _ => False
  | .generatedClone ty => ty ∈ s.clonesToGenerate
  | .generatedDrop ty => ty ∈ s.dropsToGenerate
  | .generatedEq ty => ty ∈ s.eqToGenerate

def Lowerer.request (func : FunName) (s : Lowerer) : Lowerer :=
  match func with
  | .item _ => s
  | .generatedClone ty => { s with clonesToGenerate := s.clonesToGenerate ++ [ty] }
  | .generatedDrop ty => { s with dropsToGenerate := s.dropsToGenerate ++ [ty] }
  | .generatedEq ty => { s with eqToGenerate := s.eqToGenerate ++ [ty] }

/-- A later state of a lowerer. -/
structure Later (s s' : Lowerer) : Prop where
  scope : s'.functionScope = s.functionScope
  tmpIdx : s.tmpIdx ≤ s'.tmpIdx
  vars : ∃ new, s'.vars = s.vars ++ new ∧ ∀ e ∈ new, ∃ k, e.1.kind = .tmp k ∧ s.tmpIdx ≤ k
  queued : ∀ func, s.queued func → s'.queued func
  runtimeFunctions : s.runtimeFunctions ⊆ s'.runtimeFunctions
  emitted : s.emitted ⊆ s'.emitted

theorem Later.refl (s : Lowerer) : Later s s where
  scope := rfl
  tmpIdx := le_rfl
  vars := ⟨[], (List.append_nil _).symm, fun _ he => nomatch he⟩
  queued := fun _ h => h
  runtimeFunctions := List.Subset.refl _
  emitted := List.Subset.refl _

theorem Later.trans {s s₁ s₂ : Lowerer} (h : Later s s₁) (h' : Later s₁ s₂) : Later s s₂ where
  scope := h'.scope.trans h.scope
  tmpIdx := h.tmpIdx.trans h'.tmpIdx
  vars := by
    obtain ⟨new, hvars, hnew⟩ := h.vars
    obtain ⟨new', hvars', hnew'⟩ := h'.vars
    refine ⟨new ++ new', by rw [hvars', hvars, List.append_assoc], fun e he => ?_⟩
    rcases List.mem_append.mp he with he | he
    · exact hnew e he
    · obtain ⟨k, hk, hle⟩ := hnew' e he
      exact ⟨k, hk, h.tmpIdx.trans hle⟩
  queued := fun func hq => h'.queued func (h.queued func hq)
  runtimeFunctions := List.Subset.trans h.runtimeFunctions h'.runtimeFunctions
  emitted := List.Subset.trans h.emitted h'.emitted

/-- What a function is lowered under: the types of its parameters, the functions that it may
call, and the signatures that may be recorded for registered functions. -/
structure Site where
  params : Var → Option IrType
  explicit : ∀ v ty, params v = some ty → ∃ x, v.kind = .explicit x
  items : Identifier → Signature → Prop
  generated : FunName → Prop
  runtime : ℕ → Signature → Prop

variable {S : Site} {α β : Type} {s s' : Lowerer} {op : Operand} {ty : IrType}

def Lowerer.type (S : Site) (s : Lowerer) (op : Operand) : Option IrType :=
  operandType S.params s.vars op

/-- What has a type keeps it. -/
theorem Later.type (h : Later s s') (hop : s.type S op = some ty) : s'.type S op = some ty := by
  cases op with
  | value v => exact hop
  | place v =>
    obtain ⟨new, hvars, hnew⟩ := h.vars
    simp only [Lowerer.type, operandType] at hop ⊢
    split_ifs at hop ⊢ with hkind
    · exact hop
    · rw [hvars, List.lookup_append]
      cases hlookup : s.vars.lookup v with
      | some slot =>
        rw [hlookup] at hop
        exact hop
      | none =>
        rw [hlookup] at hop
        obtain ⟨x, hx⟩ := S.explicit v ty hop
        have hnone : new.lookup v = none := by
          refine List.lookup_eq_none_iff.mpr fun e he => ?_
          obtain ⟨k, hk, -⟩ := hnew e he
          refine bne_iff_ne.mpr fun heq => ?_
          rw [heq, hk] at hx
          cases hx
        rw [hnone]
        exact hop

theorem Later.types {ops : List Operand} {tys : List (Option IrType)} (h : Later s s')
    (hops : ops.map (s.type S) = tys) (hsome : ∀ t ∈ tys, t ≠ none) :
    ops.map (s'.type S) = tys := by
  subst hops
  refine List.map_congr_left fun op hop => ?_
  obtain ⟨ty, hty⟩ := Option.ne_none_iff_exists'.mp (hsome _ (List.mem_map_of_mem hop))
  rw [hty]
  exact h.type hty

theorem Passes.later {dest : Option (Var × IrType)} {ctx : Option Operand} {args : List Operand}
    {returnPtr : Option Var} {sig : Signature} (hlater : Later s s')
    (h : Passes (s.type S) dest ctx args returnPtr sig) :
    Passes (s'.type S) dest ctx args returnPtr sig where
  args := by
    refine hlater.types h.args fun t ht => ?_
    obtain ⟨p, -, rfl⟩ := List.mem_map.mp ht
    exact Option.some_ne_none _
  context := by
    have hctx := h.context
    cases ctx with
    | none => exact hctx
    | some c =>
      split_ifs at hctx ⊢
      · exact congrArg some (hlater.type (Option.some.inj hctx))
      · cases hctx
  returnPtr := by
    have hptr := h.returnPtr
    cases returnPtr with
    | none => exact hptr
    | some p =>
      split_ifs at hptr ⊢
      · exact congrArg some (hlater.type (Option.some.inj hptr))
      · cases hptr
  result := h.result

/-- What is known of an emitted instruction. -/
def Accounted (S : Site) (s : Lowerer) : Instruction → Prop
  | .call dest ctx (.item n) args returnPtr =>
    ∃ sig, S.items n sig ∧ Passes (s.type S) dest ctx args returnPtr sig
  | .call dest ctx func args returnPtr =>
    S.generated func ∧ s.queued func ∧
      ∃ sig, generatedSignature func = some sig ∧ Passes (s.type S) dest ctx args returnPtr sig
  | .functionAddress _ func => S.generated func ∧ s.queued func
  | .callRuntime func args => ∃ sig, (func, sig) ∈ s.runtimeFunctions ∧ S.runtime func sig ∧
    args.map (s.type S) = sig.parameters.map fun p => some p.2
  | _ => True

theorem Accounted.later {i : Instruction} (hlater : Later s s') (h : Accounted S s i) :
    Accounted S s' i := by
  cases i
  case call dest ctx func args returnPtr =>
    cases func
    case item n =>
      obtain ⟨sig, hsig, hpasses⟩ := h
      exact ⟨sig, hsig, hpasses.later hlater⟩
    all_goals
      obtain ⟨hgenerated, hqueued, sig, hsig, hpasses⟩ := h
      exact ⟨hgenerated, hlater.queued _ hqueued, sig, hsig, hpasses.later hlater⟩
  case functionAddress dest func => exact ⟨h.1, hlater.queued _ h.2⟩
  case callRuntime func args =>
    obtain ⟨sig, hmem, hsig, hargs⟩ := h
    refine ⟨sig, hlater.runtimeFunctions hmem, hsig, hlater.types hargs fun t ht => ?_⟩
    obtain ⟨p, -, rfl⟩ := List.mem_map.mp ht
    exact Option.some_ne_none _
  all_goals trivial

/-! ### Computations -/

/-- All that is new in a later state is accounted for. -/
structure Gained (S : Site) (s s' : Lowerer) : Prop where
  emitted : ∀ i ∈ s'.emitted, i ∈ s.emitted ∨ Accounted S s' i
  runtime : ∀ e ∈ s'.runtimeFunctions, e ∈ s.runtimeFunctions ∨ S.runtime e.1 e.2

theorem Gained.refl (s : Lowerer) : Gained S s s := ⟨fun _ h => .inl h, fun _ h => .inl h⟩

theorem Gained.trans {s s₁ s₂ : Lowerer} (hlater : Later s₁ s₂) (h : Gained S s s₁)
    (h' : Gained S s₁ s₂) : Gained S s s₂ where
  emitted := by
    intro i hi
    rcases h'.emitted i hi with hi | hi
    · exact (h.emitted i hi).imp_right fun h => h.later hlater
    · exact .inr hi
  runtime := by
    intro e he
    rcases h'.runtime e he with he | he
    · exact h.runtime e he
    · exact .inr he

/-- Every computation leads to a later state. Where `pre` holds, all that it emits is accounted
for, and `post` holds of its answer. -/
def Calls (S : Site) (pre : Lowerer → Prop) (m : Lower α) (post : α → Lowerer → Prop) : Prop :=
  ∀ s a s', s.Fresh → m s = some (a, s') →
    Later s s' ∧ s'.Fresh ∧ (pre s → post a s' ∧ Gained S s s')

/-- What holds in a state holds in the later ones. -/
def Persistent (pre : Lowerer → Prop) : Prop := ∀ s s', Later s s' → pre s → pre s'

theorem persistent_true : Persistent fun _ => True := fun _ _ _ h => h

theorem persistent_type (S : Site) (op : Operand) (ty : IrType) :
    Persistent fun s => s.type S op = some ty :=
  fun _ _ hlater h => hlater.type h

theorem Persistent.and {p q : Lowerer → Prop} (hp : Persistent p) (hq : Persistent q) :
    Persistent fun s => p s ∧ q s :=
  fun s s' hlater h => ⟨hp s s' hlater h.1, hq s s' hlater h.2⟩

theorem persistent_const {p : Prop} : Persistent fun _ => p := fun _ _ _ h => h

variable {pre : Lowerer → Prop} {post : α → Lowerer → Prop}

namespace Calls

theorem pure {a : α} (h : ∀ s, pre s → post a s) : Calls S pre (Pure.pure a) post := by
  intro s b s' hs hrun
  obtain ⟨rfl, rfl⟩ := Lower.pure_some hrun
  exact ⟨.refl s, hs, fun hpre => ⟨h s hpre, .refl s⟩⟩

theorem bind {m : Lower α} {k : α → Lower β} {mid : α → Lowerer → Prop}
    {post : β → Lowerer → Prop} (hpre : Persistent pre) (hm : Calls S pre m mid)
    (hk : ∀ a, Calls S (fun s => pre s ∧ mid a s) (k a) post) : Calls S pre (m >>= k) post := by
  intro s b s' hs hrun
  obtain ⟨a, s₁, h₁, h₂⟩ := Lower.bind_some hrun
  obtain ⟨hlater₁, hs₁, hfirst⟩ := hm s a s₁ hs h₁
  obtain ⟨hlater₂, hs₂, hsecond⟩ := hk a s₁ b s' hs₁ h₂
  refine ⟨hlater₁.trans hlater₂, hs₂, fun hp => ?_⟩
  obtain ⟨hmid, hgained⟩ := hfirst hp
  obtain ⟨hpost, hgained'⟩ := hsecond ⟨hpre s s₁ hlater₁ hp, hmid⟩
  exact ⟨hpost, hgained.trans hlater₂ hgained'⟩

theorem imp {pre' : Lowerer → Prop} {post' : α → Lowerer → Prop} {m : Lower α}
    (h : Calls S pre m post) (hpre : ∀ s, pre' s → pre s) (hpost : ∀ a s, post a s → post' a s) :
    Calls S pre' m post' := by
  intro s a s' hs hrun
  obtain ⟨hlater, hs', hrest⟩ := h s a s' hs hrun
  exact ⟨hlater, hs', fun hp => (hrest (hpre s hp)).imp_left (hpost a s')⟩

/-- A step whose answer does not matter. -/
theorem seq {m : Lower α} {k : α → Lower β} {post : β → Lowerer → Prop} (hpre : Persistent pre)
    (hm : Calls S pre m fun _ _ => True) (hk : ∀ a, Calls S pre (k a) post) :
    Calls S pre (m >>= k) post :=
  .bind hpre hm fun a => (hk a).imp (fun _ h => h.1) fun _ _ h => h

/-- A computation that relies on nothing. -/
theorem always {m : Lower α} (h : Calls S (fun _ => True) m post) : Calls S pre m post :=
  h.imp (fun _ _ => trivial) fun _ _ h => h

theorem unwrap {x : Option α} (h : ∀ a s, x = some a → pre s → post a s) :
    Calls S pre (unwrap x) post := by
  intro s a s' hs hrun
  obtain ⟨hx, rfl⟩ := Lower.unwrap_some hrun
  exact ⟨.refl s, hs, fun hpre => ⟨h a s hx hpre, .refl s⟩⟩

theorem get {post : Lowerer → Lowerer → Prop} (h : ∀ s, pre s → post s s) :
    Calls S pre (MonadState.get : Lower Lowerer) post := by
  intro s a s' hs hrun
  obtain ⟨rfl, rfl⟩ := Prod.mk.inj (Option.some.inj hrun)
  exact ⟨.refl s, hs, fun hpre => ⟨h s hpre, .refl s⟩⟩

end Calls

/-! ### Steps of the lowerer -/

/-- Nothing follows from the answer. -/
abbrev Any {α : Type} : α → Lowerer → Prop := fun _ _ => True

theorem calls_emit {i : Instruction} (h : ∀ s, pre s → Accounted S s i) :
    Calls S pre (emit i) Any := by
  intro s u s' hs hrun
  obtain rfl := Lower.emit_some hrun
  have hemitted : Lowerer.emitted { s with instructions := s.instructions ++ [i] } =
      s.emitted ++ [i] := (List.append_assoc ..).symm
  refine ⟨⟨rfl, le_rfl, (Later.refl s).vars, fun _ h => h, List.Subset.refl _, ?_⟩, hs,
    fun hpre => ⟨trivial, fun j hj => ?_, fun e he => .inl he⟩⟩
  · rw [hemitted]
    exact List.subset_append_left _ _
  · rw [hemitted] at hj
    rcases List.mem_append.mp hj with hj | hj
    · exact .inl hj
    · obtain rfl := List.mem_singleton.mp hj
      exact .inr (h s hpre)

/-- A variable for a new temporary. -/
theorem calls_declare (slot : ValueOrSlot) {m : Lower Var}
    (hm : ∀ s, m s = some (⟨s.functionScope, .tmp s.tmpIdx⟩,
      { s with
        tmpIdx := s.tmpIdx + 1
        vars := s.vars ++ [(⟨s.functionScope, .tmp s.tmpIdx⟩, slot)] })) :
    Calls S pre m fun v s => s.type S (.place v) = some slot.irType := by
  intro s v s' hs hrun
  rw [hm] at hrun
  obtain ⟨rfl, rfl⟩ := Prod.mk.inj (Option.some.inj hrun)
  refine ⟨⟨rfl, Nat.le_succ _, ⟨_, rfl, ?_⟩, fun _ h => h, List.Subset.refl _,
    List.Subset.refl _⟩, ?_, fun _ => ⟨?_, fun i hi => .inl hi, fun e he => .inl he⟩⟩
  · intro e he
    obtain rfl := List.mem_singleton.mp he
    exact ⟨s.tmpIdx, rfl, le_rfl⟩
  · intro e he k hk
    rcases List.mem_append.mp he with he | he
    · exact Nat.lt_succ_of_lt (hs e he k hk)
    · obtain rfl := List.mem_singleton.mp he
      obtain rfl := VarKind.tmp.inj hk
      exact Nat.lt_succ_self _
  · have hnone : s.vars.lookup ⟨s.functionScope, .tmp s.tmpIdx⟩ = none := by
      refine List.lookup_eq_none_iff.mpr fun e he => bne_iff_ne.mpr fun heq => ?_
      have hlt := hs e he s.tmpIdx (by rw [← heq])
      omega
    simp [Lowerer.type, operandType, List.lookup_append, hnone]

theorem calls_newTmp (ty : IrType) :
    Calls S pre (newTmp ty) fun v s => s.type S (.place v) = some ty :=
  calls_declare (.val ty) fun _ => rfl

theorem calls_newStackSlot (l : Layout) :
    Calls S pre (newStackSlot l) fun v s => s.type S (.place v) = some .pointer :=
  calls_declare (.stackSlot l) fun _ => rfl

theorem calls_newBlock (label : LabelRef) : Calls S pre (newBlock label) Any := by
  intro s u s' hs hrun
  obtain rfl := Lower.modify_some hrun
  have hemitted : Lowerer.emitted
      { s with blocks := s.blocks ++ [⟨s.label, s.instructions⟩], label, instructions := [] } =
      s.emitted := by
    simp [Lowerer.emitted]
  refine ⟨⟨rfl, le_rfl, (Later.refl s).vars, fun _ h => h, List.Subset.refl _, ?_⟩, hs,
    fun _ => ⟨trivial, fun i hi => .inl ?_, fun e he => .inl he⟩⟩
  · rw [hemitted]
    exact List.Subset.refl _
  · rw [hemitted] at hi
    exact hi

theorem calls_wrapInternal : Calls S pre wrapInternal Any := by
  intro s u s' hs hrun
  obtain ⟨-, rfl⟩ := Prod.mk.inj (Option.some.inj hrun)
  exact ⟨⟨rfl, le_rfl, (Later.refl s).vars, fun _ h => h, List.Subset.refl _,
    List.Subset.refl _⟩, hs, fun _ => ⟨trivial, fun i hi => .inl hi, fun e he => .inl he⟩⟩

theorem calls_wrapInternals (n : ℕ) : Calls S (fun _ => True) (wrapInternals n) Any := by
  induction n with
  | zero => exact .pure fun _ _ => trivial
  | succ n ih =>
    exact .seq persistent_true calls_wrapInternal fun _ =>
      .seq persistent_true ih fun _ => .pure fun _ _ => trivial

theorem request_later (func : FunName) (s : Lowerer) : Later s (s.request func) := by
  cases func
  all_goals
    refine ⟨rfl, le_rfl, (Later.refl s).vars, fun g hg => ?_, List.Subset.refl _,
      List.Subset.refl _⟩
    cases g <;> simp_all [Lowerer.queued, Lowerer.request]

theorem request_queued (func : FunName) (h : generatedSignature func ≠ none) (s : Lowerer) :
    (s.request func).queued func := by
  cases func
  case item => exact absurd rfl h
  all_goals exact List.mem_append_right _ (List.mem_singleton_self _)

/-- A function is asked for after an instruction that names it. -/
theorem calls_request (func : FunName) {i : Instruction}
    (h : ∀ s, pre s → Accounted S (s.request func) i) :
    Calls S pre (emit i >>= fun _ => modify (Lowerer.request func)) Any := by
  intro s u s' hs hrun
  obtain ⟨u₁, s₁, hemit, hrest⟩ := Lower.bind_some hrun
  have hsilent : Calls S (fun _ => False) (emit i) Any := calls_emit fun _ h => h.elim
  obtain ⟨hlater, hs₁, -⟩ := hsilent s u₁ s₁ hs hemit
  obtain rfl := Lower.emit_some hemit
  obtain rfl := Lower.modify_some hrest
  refine ⟨hlater.trans (request_later _ _), ?_, fun hpre => ⟨trivial, fun j hj => ?_, ?_⟩⟩
  · cases func <;> exact hs₁
  · have hj : j ∈ s.blocks.flatMap Block.instructions ++ (s.instructions ++ [i]) := by
      cases func <;> exact hj
    rw [← List.append_assoc] at hj
    rcases List.mem_append.mp hj with hj | hj
    · exact .inl hj
    · obtain rfl := List.mem_singleton.mp hj
      refine .inr ?_
      have hi := h s hpre
      cases func <;> exact hi
  · cases func <;> exact fun e he => .inl he

theorem calls_request_seq (func : FunName) {i : Instruction} {k : Unit → Lower α}
    (hpre : Persistent pre) (h : ∀ s, pre s → Accounted S (s.request func) i)
    (hk : ∀ u, Calls S pre (k u) post) :
    Calls S pre (emit i >>= fun _ => modify (Lowerer.request func) >>= k) post := by
  have hseq := Calls.seq hpre (calls_request func h) hk
  rw [bind_assoc] at hseq
  exact hseq

end Roto.Lir
