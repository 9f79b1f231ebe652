import RotoCompiler.Ast.Everywhere
import RotoCompiler.Lib.LaidCode
import RotoCompiler.Mir.DeadCode
import RotoCompiler.Mir.Lowering

/-!
# The control flow of lowered items

Every label that the lowerer hands out is used for one block at most, every block has an end,
and what is reached leads to blocks that are there.
-/

namespace Roto.Mir
open LaidCode
open Ast (Literal BinOp CompoundAssignOp ReturnKind Path Pattern Expr Alg Step)
open TypeChecker (Typ)

def Block.events (b : Block) : List (Event Instruction) :=
  .block b.label :: b.instructions.map Event.inst

namespace Lowering

def events (s : Lowering) : List (Event Instruction) := s.allBlocks.flatMap Block.events

def laid : Generator Lowering Instruction := ⟨events, fun s => s.labelStore.length⟩

/-- The rules of `LaidCode` at the lowerer. -/
abbrev Flows {α : Type} (alive : Prop) (M R : Set ℕ) (t t' : Bool) (m : Lower α) : Prop :=
  Lays laid Instruction.successors alive M R t t' m

variable {α β : Type} {env : LowerEnv} {alive : Prop} {M R : Set ℕ} {t t' t₁ : Bool}

/-! ### Steps that stay in the block -/

/-- Neither blocks nor labels are touched. -/
def Quiet (m : Lower α) : Prop :=
  ∀ s a s', m s = some (a, s') → s'.blocks = s.blocks ∧ s'.label = s.label ∧
    s'.instructions = s.instructions ∧ s'.labelStore = s.labelStore

/-- Only instructions that do not end the block are emitted. -/
def Plain (m : Lower α) : Prop :=
  ∀ s a s', m s = some (a, s') → ∃ is : List Instruction, (∀ i ∈ is, i.successors = none) ∧
    s'.events = s.events ++ is.map Event.inst ∧ s'.labelStore = s.labelStore

theorem events_append (s : Lowering) (is : List Instruction) :
    events { s with instructions := s.instructions ++ is } = s.events ++ is.map Event.inst := by
  simp [events, allBlocks, Block.events]

theorem Quiet.events {m : Lower α} (h : Quiet m) {s s' : Lowering} {a : α}
    (hm : m s = some (a, s')) : s'.events = s.events := by
  have hs := h s a s' hm
  simp only [Lowering.events, allBlocks, hs.1, hs.2.1, hs.2.2.1]

theorem Quiet.plain {m : Lower α} (h : Quiet m) : Plain m := by
  intro s a s' hm
  exact ⟨[], by simp, by simp [h.events hm], (h s a s' hm).2.2.2⟩

theorem flows_quiet {m : Lower α} (h : Quiet m) : Flows alive M ∅ t t m := by
  apply Lays.quiet
  intro s a s' hm
  exact ⟨h.events hm, congrArg List.length (h s a s' hm).2.2.2⟩

theorem flows_plain {m : Lower α} (h : Plain m) : Flows alive M ∅ t false m := by
  intro s a s' hlt hm
  obtain ⟨is, his, hevents, hstore⟩ := h s a s' hm
  have hnext : laid.next s' = laid.next s := congrArg List.length hstore
  have hinsts : Fragment Instruction.successors alive M ∅ (laid.next s) (laid.next s')
      (is.map Event.inst) := by
    rw [hnext]
    apply Fragment.insts
    intro _ i hi ls hls
    rw [his i hi] at hls
    cases hls
  exact ⟨is.map Event.inst, hevents, hinsts, sealed_insts _ t is, fun h => by cases h⟩

namespace Quiet

theorem pure (a : α) : Quiet (Pure.pure a : Lower α) := by
  intro s b s' h
  have hs : s = s' := (Prod.mk.inj (Option.some.inj h)).2
  rw [hs]
  exact ⟨rfl, rfl, rfl, rfl⟩

theorem bind {m : Lower α} {k : α → Lower β} (hm : Quiet m) (hk : ∀ a, Quiet (k a)) :
    Quiet (m >>= k) := by
  intro s b s' h
  obtain ⟨a, s₁, h₁, h₂⟩ := Lays.bind_some h
  obtain ⟨hb₁, hl₁, hi₁, hs₁⟩ := hm s a s₁ h₁
  obtain ⟨hb₂, hl₂, hi₂, hs₂⟩ := hk a s₁ b s' h₂
  exact ⟨hb₂.trans hb₁, hl₂.trans hl₁, hi₂.trans hi₁, hs₂.trans hs₁⟩

theorem update {f : Lowering → α} {g : Lowering → Lowering}
    (h : ∀ s, (g s).blocks = s.blocks ∧ (g s).label = s.label ∧
      (g s).instructions = s.instructions ∧ (g s).labelStore = s.labelStore) :
    Quiet (fun s => some (f s, g s) : Lower α) := by
  intro s a s' hm
  rw [← (Prod.mk.inj (Option.some.inj hm)).2]
  exact h s

theorem state {f : Lowering → α} : Quiet (fun s => some (f s, s) : Lower α) :=
  update fun _ => ⟨rfl, rfl, rfl, rfl⟩

theorem unwrap (x : Option α) : Quiet (unwrap x) := by
  intro s a s' h
  obtain ⟨b, -, hb⟩ := Option.map_eq_some_iff.mp h
  have hs : s = s' := (Prod.mk.inj hb).2
  rw [hs]
  exact ⟨rfl, rfl, rfl, rfl⟩

theorem ice : Quiet (ice : Lower α) := by
  intro s a s' h
  cases h

theorem undroppedTmp : Quiet undroppedTmp := update fun _ => ⟨rfl, rfl, rfl, rfl⟩

theorem tmp (ty : Ty) : Quiet (tmp ty) := update fun _ => ⟨rfl, rfl, rfl, rfl⟩

theorem declare (var : Var) (ty : Ty) : Quiet (declare var ty) :=
  update fun _ => ⟨rfl, rfl, rfl, rfl⟩

theorem pushLive (var : Var) (ty : Ty) : Quiet (pushLive var ty) :=
  update fun _ => ⟨rfl, rfl, rfl, rfl⟩

theorem addLiveVariable (var : Var) (ty : Ty) : Quiet (addLiveVariable var ty) :=
  update fun _ => ⟨rfl, rfl, rfl, rfl⟩

theorem pushSlot : Quiet pushSlot := update fun _ => ⟨rfl, rfl, rfl, rfl⟩

theorem popSlot : Quiet popSlot := update fun _ => ⟨rfl, rfl, rfl, rfl⟩

theorem lowerer {l l' : Lowerer} {var : Var} (h : l.removeLiveVariable var = some l') :
    l'.blocks = l.blocks ∧ l'.label = l.label ∧ l'.instructions = l.instructions := by
  unfold Lowerer.removeLiveVariable at h
  split_ifs at h
  rw [← Option.some.inj h]
  exact ⟨rfl, rfl, rfl⟩

theorem removeLiveVariable (var : Var) : Quiet (removeLiveVariable var) := by
  intro s a s' h
  unfold Lowering.removeLiveVariable at h
  cases hfind : s.stackSlot.find? fun v => v.1 = var with
  | none => simp [hfind] at h
  | some v =>
    simp only [hfind] at h
    obtain ⟨l, hl, hs⟩ := Option.map_eq_some_iff.mp h
    have hl' := lowerer hl
    rw [← (Prod.mk.inj hs).2]
    exact ⟨hl'.1, hl'.2.1, hl'.2.2, rfl⟩

theorem removeAll (vars : List Var) : Quiet (removeAll vars) := by
  induction vars with
  | nil => exact Quiet.pure ()
  | cons var vars ih => exact (Quiet.removeLiveVariable var).bind fun _ => ih

theorem callRuntime (funcRef : ℕ) (vtables : List Ty) (sig : Signature) (args : List Var) :
    Quiet (callRuntime funcRef vtables sig args) :=
  (Quiet.removeAll args).bind fun _ => Quiet.pure _

theorem armSlot (env : LowerEnv) (variants : Variants) (branch : Branch) :
    Quiet (armSlot env variants branch) := by
  unfold Lowering.armSlot
  cases branch.pattern with
  | underscore => exact Quiet.pure []
  | enumVariant v fields =>
    cases fields with
    | none => exact Quiet.pure []
    | some fields =>
      exact (Quiet.unwrap _).bind fun d => (Quiet.unwrap _).bind fun variant => Quiet.pure _

theorem pushAll (slot : List (Var × Ty)) : Quiet (pushAll slot) := by
  induction slot with
  | nil => exact Quiet.pure ()
  | cons v slot ih => exact (Quiet.pushLive _ _).bind fun _ => ih

theorem addParameters (env : LowerEnv) (params : List (Meta Identifier)) :
    Quiet (addParameters env params) := by
  induction params with
  | nil => exact Quiet.pure ()
  | cons x params ih => exact (Quiet.addLiveVariable _ _).bind fun _ => ih

end Quiet

namespace Plain

theorem pure (a : α) : Plain (Pure.pure a : Lower α) := (Quiet.pure a).plain

theorem bind {m : Lower α} {k : α → Lower β} (hm : Plain m) (hk : ∀ a, Plain (k a)) :
    Plain (m >>= k) := by
  intro s b s' h
  obtain ⟨a, s₁, h₁, h₂⟩ := Lays.bind_some h
  obtain ⟨is₁, hp₁, he₁, hl₁⟩ := hm s a s₁ h₁
  obtain ⟨is₂, hp₂, he₂, hl₂⟩ := hk a s₁ b s' h₂
  refine ⟨is₁ ++ is₂, ?_, ?_, hl₂.trans hl₁⟩
  · intro i hi
    rcases List.mem_append.mp hi with hi | hi
    · exact hp₁ i hi
    · exact hp₂ i hi
  · rw [he₂, he₁, List.map_append, List.append_assoc]

theorem emitAll {is : List Instruction} (h : ∀ i ∈ is, i.successors = none) :
    Plain (emitAll is) := by
  intro s a s' hm
  have hs : s' = { s with instructions := s.instructions ++ is } :=
    (Prod.mk.inj (Option.some.inj hm)).2.symm
  exact ⟨is, h, by rw [hs, events_append], by rw [hs]⟩

theorem emit {i : Instruction} (h : i.successors = none) : Plain (emit i) := by
  apply emitAll
  intro j hj
  rw [List.mem_singleton.mp hj]
  exact h

theorem lowerer_doAssign {l l' : Lowerer} {dest : Place} {ty : Ty} {val : Value}
    (h : l.doAssign dest ty val = some l') :
    l'.blocks = l.blocks ∧ l'.label = l.label ∧
      l'.instructions = l.instructions ++ [.assign dest ty val] := by
  cases val with
  | move var =>
    obtain ⟨l₁, h₁, h₂⟩ := Option.map_eq_some_iff.mp h
    have hl := Quiet.lowerer h₁
    rw [← h₂]
    exact ⟨hl.1, hl.2.1, by rw [← hl.2.2]; rfl⟩
  | _ =>
    rw [← Option.some.inj h]
    exact ⟨rfl, rfl, rfl⟩

theorem doAssign (dest : Place) (ty : Ty) (val : Value) : Plain (doAssign dest ty val) := by
  intro s a s' h
  obtain ⟨l, hl, hs⟩ := Option.map_eq_some_iff.mp h
  have hl' := lowerer_doAssign hl
  have hs' := (Prod.mk.inj hs).2
  refine ⟨[.assign dest ty val], by simp [Instruction.successors], ?_, by rw [← hs']⟩
  rw [← hs']
  simp [events, allBlocks, Block.events, hl'.1, hl'.2.1, hl'.2.2]

theorem assignToVar (value : Value) (ty : Ty) : Plain (assignToVar value ty) := by
  unfold Lowering.assignToVar
  cases value with
  | move x => exact Plain.pure x
  | _ => exact (Quiet.tmp ty).plain.bind fun dest => (Plain.doAssign _ _ _).bind fun _ => Plain.pure dest

theorem dropsOf {slot : List (Var × Ty)} : ∀ i ∈ dropsOf slot, i.successors = none := by
  intro i hi
  obtain ⟨v, -, rfl⟩ := List.mem_map.mp hi
  rfl

theorem dropSlot : Plain dropSlot :=
  Quiet.popSlot.plain.bind fun _ => Plain.emitAll Plain.dropsOf

theorem dropVar (var : Var) : Plain (dropVar var) :=
  (Quiet.removeLiveVariable var).plain.bind fun _ => Plain.emit rfl

theorem assignFields (dest : Var) (ty : Ty) (variant : Identifier) (i : ℕ)
    (arguments : List (Value × Ty)) : Plain (assignFields dest ty variant i arguments) := by
  induction arguments generalizing i with
  | nil => exact Plain.pure ()
  | cons a arguments ih => exact (Plain.doAssign _ _ _).bind fun _ => ih (i + 1)

theorem makeEnum (ty : Ty) (variant : Identifier) (arguments : List (Value × Ty)) :
    Plain (makeEnum ty variant arguments) := by
  unfold Lowering.makeEnum
  cases ty with
  | enum variants =>
    simp only
    split_ifs
    · exact (Quiet.tmp _).plain.bind fun dest => (Plain.emit rfl).bind fun _ =>
        (Plain.assignFields _ _ _ _ _).bind fun _ => Plain.pure _
    · exact Quiet.ice.plain
  | _ => exact Quiet.ice.plain

theorem passArgument (ty : Ty) (val : Value) : Plain (passArgument ty val) :=
  Quiet.undroppedTmp.plain.bind fun t => (Quiet.declare t ty).plain.bind fun _ =>
    (Plain.doAssign _ _ _).bind fun _ => Plain.pure t

theorem passReceiver (env : LowerEnv) (receiver : Option (Value × Typ)) :
    Plain (passReceiver env receiver) := by
  cases receiver with
  | none => exact Plain.pure []
  | some r => exact (Plain.passArgument _ _).bind fun t => Plain.pure [t]

theorem extractFields (examinee : Var) (ty : Ty) (variant : Identifier) (i : ℕ)
    (fields : List (Var × Ty)) : Plain (extractFields examinee ty variant i fields) := by
  induction fields generalizing i with
  | nil => exact Plain.pure ()
  | cons f fields ih =>
    exact (Quiet.addLiveVariable _ _).plain.bind fun _ => (Plain.doAssign _ _ _).bind fun _ => ih (i + 1)

theorem bindFields (env : LowerEnv) (examinee : Var) (ty : Ty)
    (variant : Option (Identifier × List Ty)) (pattern : Pattern) :
    Plain (bindFields env examinee ty variant pattern) := by
  cases pattern with
  | underscore => exact Plain.pure ()
  | enumVariant v fields =>
    cases fields with
    | none => exact Plain.pure ()
    | some fields => exact (Quiet.unwrap _).plain.bind fun variant => Plain.extractFields _ _ _ _ _

/-- The end of an assignment. -/
theorem assignValue (place : Place) (ty : Ty) (val : Value) :
    Plain (fun s => (assignValue place ty val s.toLowerer).map
      fun l => ((), { s with toLowerer := l }) : Lower Unit) := by
  intro s a s' h
  obtain ⟨l, hl, hs⟩ := Option.map_eq_some_iff.mp h
  have hs' := (Prod.mk.inj hs).2
  unfold Mir.assignValue at hl
  cases hfirst : (s.toLowerer.tmp ty).doAssign (Place.new s.toLowerer.nextTmp ty) ty val with
  | none => simp [hfirst] at hl
  | some l₁ =>
    simp only [hfirst] at hl
    have h₁ := lowerer_doAssign hfirst
    have h₂ := lowerer_doAssign hl
    refine ⟨[.assign (Place.new s.toLowerer.nextTmp ty) ty val, .drop place ty,
      .assign place ty (.move s.toLowerer.nextTmp)], by simp [Instruction.successors], ?_,
      by rw [← hs']⟩
    have hblocks : s'.blocks = s.blocks := by rw [← hs']; exact h₂.1.trans h₁.1
    have hlabel : s'.label = s.label := by rw [← hs']; exact h₂.2.1.trans h₁.2.1
    have his : s'.instructions = s.instructions ++
        [.assign (Place.new s.toLowerer.nextTmp ty) ty val, .drop place ty,
          .assign place ty (.move s.toLowerer.nextTmp)] := by
      rw [← hs']
      refine h₂.2.2.trans ?_
      show (l₁.instructions ++ [.drop place ty]) ++ _ = _
      rw [h₁.2.2]
      simp [Lowerer.tmp, Lowerer.addLiveVariable]
    simp [events, allBlocks, Block.events, hblocks, hlabel, his]

end Plain

/-! ### Steps that end or start a block -/

theorem flows_ends {i : Instruction} {ls : List LabelRef} (hi : i.successors = some ls)
    (h : alive → ∀ l ∈ ls, l ∈ M) : Flows alive M ∅ t true (emit i) := by
  apply Lays.insts [i]
  · intro s a s' hm
    have hs : s' = { s with instructions := s.instructions ++ [i] } :=
      (Prod.mk.inj (Option.some.inj hm)).2.symm
    exact ⟨by rw [hs]; exact events_append s [i], by rw [hs]; rfl⟩
  · intro ha j hj ls' hls'
    rw [List.mem_singleton.mp hj, hi] at hls'
    rw [← Option.some.inj hls']
    exact h ha
  · intro _
    simp [ends, hi]

theorem flows_jump {l : LabelRef} (h : alive → l ∈ M) : Flows alive M ∅ t true (emit (.jump l)) := by
  apply flows_ends rfl
  intro ha l' hl'
  rw [List.mem_singleton.mp hl']
  exact h ha

theorem flows_ret (var : Var) : Flows alive M ∅ t true (emit (.ret var)) :=
  flows_ends rfl fun _ _ hl => absurd hl List.not_mem_nil

theorem flows_switch {examinee : Var} {branches : List (ℕ × LabelRef)} {default : Option LabelRef}
    (h : alive → ∀ l ∈ branches.map (·.2) ++ default.toList, l ∈ M) :
    Flows alive M ∅ t true (emit (.switch examinee branches default)) :=
  flows_ends rfl h

theorem flows_switchCode {discriminant examinee : Var} {branches : List (ℕ × LabelRef)}
    {default : Option LabelRef}
    (h : alive → ∀ l ∈ branches.map (·.2) ++ default.toList, l ∈ M) :
    Flows alive M ∅ t true (emitAll (switchCode discriminant examinee branches default)) := by
  apply Lays.insts (switchCode discriminant examinee branches default)
  · intro s a s' hm
    have hs := (Prod.mk.inj (Option.some.inj hm)).2
    rw [← hs]
    exact ⟨events_append s _, rfl⟩
  · intro ha j hj ls hls
    rcases List.mem_cons.mp hj with hj | hj
    · rw [hj] at hls
      cases hls
    · rw [List.mem_singleton.mp hj] at hls
      rw [← Option.some.inj hls]
      exact h ha
  · intro _
    rfl

theorem newBlock_events (l : LabelRef) : ∀ s a s', newBlock l s = some (a, s') →
    laid.events s' = laid.events s ++ [.block l] ∧ laid.next s' = laid.next s := by
  intro s a s' h
  have hs := (Prod.mk.inj (Option.some.inj h)).2
  rw [← hs]
  exact ⟨by simp [laid, events, allBlocks, Block.events], rfl⟩

theorem allocates_wrap (parent : LabelRef) (identifier : Identifier) :
    Lays.Allocates laid (fun l => [l]) (wrapInternal parent identifier) := by
  intro s l s' h
  obtain ⟨hl, hs⟩ := Prod.mk.inj (Option.some.inj h)
  rw [← hl, ← hs]
  exact ⟨rfl, by simp [laid, LabelStore.wrapInternal], rfl⟩

theorem allocates_next (previous : LabelRef) :
    Lays.Allocates laid (fun l => [l]) (nextLabel previous) := by
  intro s l s' h
  obtain ⟨r, hr, hs⟩ := Option.map_eq_some_iff.mp h
  obtain ⟨label, -, hlabel⟩ := Option.map_eq_some_iff.mp hr
  obtain ⟨hl, hs⟩ := Prod.mk.inj hs
  rw [← hl, ← hs, ← hlabel]
  exact ⟨rfl, by simp [laid], rfl⟩

theorem flows_startBlock {l : LabelRef} (R' : Set ℕ) {k : Unit → Lower β}
    (hR : ∀ x, x ∈ R ↔ x = l ∨ x ∈ R') (hl : l ∉ R') (hk : Flows alive M R' false t' (k ())) :
    Flows alive M R true t' (newBlock l >>= k) :=
  Lays.startBlock R' (newBlock_events l) hR hl fun _ => hk

/-- A part of the code that lays only labels of its own. -/
def Straight (alive : Prop) (m : Lower α) : Prop := ∀ M, Flows alive M ∅ false false m

namespace Straight

theorem plain {m : Lower α} (h : Plain m) : Straight alive m := fun _ => flows_plain h

theorem quiet {m : Lower α} (h : Quiet m) : Straight alive m := fun _ => flows_quiet h

theorem pure (a : α) : Straight alive (Pure.pure a : Lower α) := quiet (Quiet.pure a)

theorem bind {m : Lower α} {k : α → Lower β} (hm : Straight alive m)
    (hk : ∀ a, Straight alive (k a)) : Straight alive (m >>= k) :=
  fun M => Lays.andThen (hm M) fun a => hk a M

end Straight

/-! ### Values and calls -/

section Values
variable {e : Part} {es : List Part}

theorem flows_returnValue (val : Value) : Flows alive M ∅ false true (returnValue val) :=
  Lays.andThen (flows_quiet Quiet.state) fun returnType =>
    Lays.andThen (flows_plain (Plain.assignToVar val returnType)) fun var =>
    Lays.andThen (flows_quiet (Quiet.removeLiveVariable var)) fun _ =>
    Lays.andThen (flows_quiet Quiet.state) fun slots =>
    Lays.andThen (flows_plain (Plain.emitAll (by
      intro i hi
      obtain ⟨slot, -, hslot⟩ := List.mem_flatMap.mp hi
      exact Plain.dropsOf i hslot))) fun _ =>
    Lays.andThen (flows_ret var) fun _ => Lays.pure _

theorem straight_returnValue (val : Value) : Straight alive (returnValue val) :=
  fun _ => Lays.forget (flows_returnValue val)

theorem straight_returnE (kind : ReturnKind) {e : Option Part} (h : ∀ x ∈ e, Straight alive x.2) :
    Straight alive (returnE env kind e) := by
  have hval : Straight alive (returnedValue env e) := by
    cases e with
    | none => exact Straight.pure _
    | some x => exact (h x rfl).bind fun val => Straight.pure _
  refine hval.bind fun val => (Straight.quiet Quiet.state).bind fun returnType => ?_
  cases kind with
  | «return» => exact straight_returnValue val.1
  | accept => exact (Straight.plain (Plain.makeEnum _ _ _)).bind fun v => straight_returnValue v
  | reject => exact (Straight.plain (Plain.makeEnum _ _ _)).bind fun v => straight_returnValue v

theorem straight_passArguments (h : ∀ a ∈ es, Straight alive a.2) :
    Straight alive (passArguments env es) := by
  induction es with
  | nil => exact Straight.pure []
  | cons a es ih =>
    obtain ⟨ha, hes⟩ := List.forall_mem_cons.mp h
    exact ha.bind fun op => (Straight.plain (Plain.passArgument _ _)).bind fun t =>
      (ih hes).bind fun ts => Straight.pure _

theorem straight_normalizedFunctionCall (func : TypeChecker.Function)
    (receiver : Option (Value × Typ)) (h : ∀ a ∈ es, Straight alive a.2) :
    Straight alive (normalizedFunctionCall env func receiver es) := by
  refine (Straight.plain (Plain.passReceiver env receiver)).bind fun receiver =>
    (straight_passArguments h).bind fun arguments => ?_
  cases func.definition with
  | runtime funcRef => exact (Straight.quiet (Quiet.unwrap _)).bind fun tys => Straight.pure _
  | roto => exact Straight.pure _

theorem straight_constructorArguments (h : ∀ a ∈ es, Straight alive a.2) :
    Straight alive (constructorArguments env es) := by
  induction es with
  | nil => exact Straight.pure []
  | cons a es ih =>
    obtain ⟨ha, hes⟩ := List.forall_mem_cons.mp h
    exact ha.bind fun val => (ih hes).bind fun vals => Straight.pure _

theorem straight_functionCall (id : MetaId) (function : Expr) {receiver : Option Part}
    (hreceiver : ∀ x ∈ receiver, Straight alive x.2) (h : ∀ a ∈ es, Straight alive a.2) :
    Straight alive (functionCall env id function receiver es) := by
  unfold functionCall
  split
  · split
    · exact (Straight.quiet (Quiet.unwrap _)).bind fun op => (Straight.quiet (Quiet.unwrap _)).bind
        fun ty => straight_normalizedFunctionCall _ _ h
    · exact straight_normalizedFunctionCall _ _ h
    · exact straight_normalizedFunctionCall _ _ h
    · exact (straight_constructorArguments h).bind fun vals =>
        Straight.plain (Plain.makeEnum _ _ _)
    · exact Straight.quiet Quiet.ice
  · exact (hreceiver _ rfl).bind fun val => straight_normalizedFunctionCall _ _ h
  · exact Straight.quiet Quiet.ice

theorem straight_access (h : Straight alive e.2) (field : Meta Identifier) :
    Straight alive (access env e field) :=
  h.bind fun _ => (Straight.plain (Plain.assignToVar _ _)).bind fun _ => Straight.pure _

theorem straight_path (id : MetaId) (p : Path) : Straight alive (path env id p) := by
  unfold path
  split
  · exact Straight.quiet (Quiet.unwrap _)
  · exact (Straight.quiet (Quiet.tmp _)).bind fun dest =>
      (Straight.plain (Plain.emit rfl)).bind fun _ => Straight.pure _
  · exact Straight.quiet Quiet.ice

theorem straight_record (id : MetaId) {fields : List (Meta Identifier × Part)}
    (h : ∀ f ∈ fields, Straight alive f.2.2) : Straight alive (record env id fields) := by
  have hfields (dest : Var) (ty : Ty) : Straight alive (assignRecord env dest ty fields) := by
    induction fields with
    | nil => exact Straight.pure ()
    | cons f fields ih =>
      obtain ⟨hf, hfields⟩ := List.forall_mem_cons.mp h
      exact hf.bind fun op => (Straight.plain (Plain.doAssign _ _ _)).bind fun _ => ih hfields
  exact (Straight.quiet (Quiet.tmp _)).bind fun dest => (hfields dest _).bind fun _ =>
    Straight.pure _

theorem straight_not (h : Straight alive e.2) : Straight alive (not e) :=
  h.bind fun _ => (Straight.plain (Plain.assignToVar _ _)).bind fun _ => Straight.pure _

theorem straight_negate (h : Straight alive e.2) : Straight alive (negate env e) :=
  h.bind fun _ => (Straight.plain (Plain.assignToVar _ _)).bind fun _ => Straight.pure _

theorem straight_list (id : MetaId) (h : ∀ x ∈ es, Straight alive x.2) :
    Straight alive (list env id es) := by
  have hpush (t unitTmp : Var) (ty inner : Ty) :
      Straight alive (pushElements env t unitTmp ty inner es) := by
    induction es with
    | nil => exact Straight.pure ()
    | cons x es ih =>
      obtain ⟨hx, hes⟩ := List.forall_mem_cons.mp h
      exact (Straight.plain (Plain.assignToVar _ _)).bind fun listVar =>
        (Straight.quiet (Quiet.removeLiveVariable _)).bind fun _ => hx.bind fun elem =>
        (Straight.plain (Plain.passArgument _ _)).bind fun elemVar =>
        (Straight.quiet (Quiet.unwrap _)).bind fun funcRef =>
        (Straight.plain (Plain.emit rfl)).bind fun _ => ih hes
  unfold list
  split
  · exact (Straight.quiet (Quiet.tmp _)).bind fun t => (Straight.quiet (Quiet.unwrap _)).bind
      fun funcRef => (Straight.plain (Plain.emit rfl)).bind fun _ =>
      (Straight.quiet (Quiet.tmp _)).bind fun unitTmp => (hpush _ _ _ _).bind fun _ =>
      Straight.pure _
  · exact Straight.quiet Quiet.ice

theorem straight_assign (p : Path) (h : Straight alive e.2) : Straight alive (assign env p e) := by
  unfold assign
  split
  · exact h.bind fun val => (Straight.plain (Plain.assignValue _ _ _)).bind fun _ => Straight.pure _
  · exact Straight.quiet Quiet.ice

end Values

/-! ### Operators -/

section Operators
variable {l r : Part}

theorem straight_operands (op : BinOp) (hl : Straight alive l.2) (hr : Straight alive r.2) :
    Straight alive (operands env op l r) :=
  hl.bind fun _ => (Straight.plain (Plain.assignToVar _ _)).bind fun _ =>
    hr.bind fun _ => (Straight.plain (Plain.assignToVar _ _)).bind fun _ => Straight.pure _

theorem straight_desugaredBinop (kind : ℕ) (name : Identifier) (returnType lTy rTy : Typ)
    (hl : Straight alive l.2) (hr : Straight alive r.2) :
    Straight alive (desugaredBinop env kind name returnType l lTy r rTy) :=
  (Straight.quiet (Quiet.unwrap _)).bind fun _ => hl.bind fun _ =>
    (Straight.plain (Plain.assignToVar _ _)).bind fun _ => hr.bind fun _ =>
    (Straight.plain (Plain.assignToVar _ _)).bind fun _ =>
    (Straight.quiet (Quiet.tmp _)).bind fun _ =>
    (Straight.quiet (Quiet.callRuntime _ _ _ _)).bind fun _ =>
    (Straight.plain (Plain.doAssign _ _ _)).bind fun _ => Straight.pure _

theorem straight_shortcircuitBinop (lblOther : Identifier) (otherIf : ℕ)
    (hl : Straight alive l.2) (hr : Straight alive r.2) :
    Straight alive (shortcircuitBinop l r lblOther otherIf) := by
  intro M
  refine Lays.andThen (flows_quiet Quiet.state) fun current => ?_
  refine Lays.reserve (allocates_next _) fun cont _ _ => ?_
  refine Lays.reserve (allocates_wrap _ _) fun other _ hother => ?_
  have hne : other ≠ cont := fun h => hother (by simp [h])
  refine Lays.andThen (flows_quiet Quiet.undroppedTmp) fun t => ?_
  refine Lays.andThen (flows_quiet Quiet.pushSlot) fun _ => ?_
  refine Lays.andThen (hl _) fun val => ?_
  refine Lays.andThen (flows_plain (Plain.doAssign _ _ _)) fun _ => ?_
  refine Lays.andThen (flows_plain Plain.dropSlot) fun _ => ?_
  refine Lays.andThen (flows_switch fun _ x hx => ?_) fun _ => ?_
  · simp at hx
    rcases hx with hx | hx <;> simp [hx]
  refine flows_startBlock {cont} (by intro x; simp) (by simpa using hne) ?_
  refine Lays.andThen (flows_quiet Quiet.pushSlot) fun _ => ?_
  refine Lays.andThen (hr _) fun val => ?_
  refine Lays.andThen (flows_plain (Plain.doAssign _ _ _)) fun _ => ?_
  refine Lays.andThen (flows_plain Plain.dropSlot) fun _ => ?_
  refine Lays.andThen (flows_quiet (Quiet.addLiveVariable _ _)) fun _ => ?_
  refine Lays.andThen (flows_jump fun _ => by simp) fun _ => ?_
  exact flows_startBlock ∅ (by intro x; simp) (by simp) (Lays.pure _)

theorem straight_binop (op : BinOp) (hl : Straight alive l.2) (hr : Straight alive r.2) :
    Straight alive (binop env l op r) := by
  unfold binop
  simp only
  split_ifs
  · exact straight_operands _ hl hr
  · exact straight_operands _ hl hr
  · exact straight_desugaredBinop _ _ _ _ _ hl hr
  · exact Straight.quiet Quiet.ice
  · exact straight_desugaredBinop _ _ _ _ _ hl hr
  · exact Straight.quiet Quiet.ice
  · exact straight_desugaredBinop _ _ _ _ _ hl hr
  · exact Straight.quiet Quiet.ice
  · exact straight_shortcircuitBinop _ _ hl hr
  · exact straight_shortcircuitBinop _ _ hl hr
  · exact straight_operands _ hl hr

end Operators

/-! ### Control flow -/

section Branches
variable {e c : Part} {b t₀ : BlockPart}

theorem straight_branchInto (res : Var) (ty : Ty) {block : Lower Value} (h : Straight alive block) :
    Straight alive (branchInto res ty block) :=
  h.bind fun _ => Straight.plain (Plain.emit rfl)

theorem straight_ifElse (id : MetaId) {els : Option BlockPart} (hc : Straight alive c.2)
    (ht : Straight alive t₀.2) (he : ∀ x ∈ els, Straight alive x.2) :
    Straight alive (ifElse env id c t₀ els) := by
  intro M
  refine Lays.andThen (hc _) fun examinee => ?_
  refine Lays.andThen (flows_plain (Plain.assignToVar _ _)) fun examinee => ?_
  refine Lays.andThen (flows_quiet Quiet.state) fun current => ?_
  refine Lays.reserve (allocates_next _) fun cont _ _ => ?_
  refine Lays.reserve (allocates_wrap _ _) fun lblThen _ hthen => ?_
  have hne : lblThen ≠ cont := fun h => hthen (by simp [h])
  cases els with
  | none =>
    refine Lays.skip (allocates_wrap _ _) fun lblElse _ _ => ?_
    refine Lays.andThen (flows_switch fun _ x hx => ?_) fun _ => ?_
    · simp at hx
      rcases hx with hx | hx <;> simp [hx]
    refine flows_startBlock {cont} (by intro x; simp) (by simpa using hne) ?_
    refine Lays.andThen (ht _) fun op => ?_
    refine Lays.andThen (flows_quiet Quiet.undroppedTmp) fun res => ?_
    refine Lays.andThen (flows_plain (Plain.emit rfl)) fun _ => ?_
    refine Lays.andThen (flows_jump fun _ => by simp) fun _ => ?_
    refine Lays.andThen (Lays.pure _) fun _ => ?_
    refine flows_startBlock ∅ (by intro x; simp) (by simp) ?_
    exact Lays.andThen (flows_quiet (Quiet.addLiveVariable _ _)) fun _ => Lays.pure _
  | some x =>
    refine Lays.reserve (allocates_wrap _ _) fun lblElse _ helse => ?_
    have hne₁ : lblElse ≠ cont := fun h => helse (by simp [h])
    have hne₂ : lblElse ≠ lblThen := fun h => helse (by simp [h])
    refine Lays.andThen (flows_switch fun _ x hx => ?_) fun _ => ?_
    · simp at hx
      rcases hx with hx | hx <;> simp [hx]
    refine flows_startBlock {lblElse, cont} (by intro x; simp; tauto)
      (by simp [hne, hne₂.symm]) ?_
    refine Lays.andThen (ht _) fun op => ?_
    refine Lays.andThen (flows_quiet Quiet.undroppedTmp) fun res => ?_
    refine Lays.andThen (flows_plain (Plain.emit rfl)) fun _ => ?_
    refine Lays.andThen (flows_jump fun _ => by simp) fun _ => ?_
    have helse : Flows alive (insert lblElse (insert lblThen (insert cont M))) {lblElse} true true
        (elseBranch res (env.ty id) lblElse cont (some x)) := by
      refine flows_startBlock ∅ (by intro x; simp) (by simp) ?_
      refine Lays.andThen (straight_branchInto _ _ (he x rfl) _) fun _ => ?_
      exact flows_jump fun _ => by simp
    have hset : ({lblElse, cont} : Set ℕ) = {lblElse} ∪ {cont} := rfl
    rw [hset]
    refine Lays.bind helse (fun _ => ?_) (by simpa using hne₁)
    refine flows_startBlock ∅ (by intro x; simp) (by simp) ?_
    exact Lays.andThen (flows_quiet (Quiet.addLiveVariable _ _)) fun _ => Lays.pure _

theorem straight_whileE (hc : Straight alive c.2) (hb : Straight alive b.2) :
    Straight alive (whileE c b) := by
  intro M
  refine Lays.andThen (flows_quiet Quiet.state) fun current => ?_
  refine Lays.reserve (allocates_next _) fun cont _ _ => ?_
  refine Lays.reserve (allocates_wrap _ _) fun condition _ hcondition => ?_
  have hne : condition ≠ cont := fun h => hcondition (by simp [h])
  refine Lays.reserve (allocates_wrap _ _) fun body _ hbody => ?_
  have hne₁ : body ≠ cont := fun h => hbody (by simp [h])
  have hne₂ : body ≠ condition := fun h => hbody (by simp [h])
  refine Lays.andThen (flows_jump fun _ => by simp) fun _ => ?_
  refine flows_startBlock {body, cont} (by intro x; simp; tauto)
    (by simp [hne, hne₂.symm]) ?_
  refine Lays.andThen (hc _) fun examinee => ?_
  refine Lays.andThen (flows_plain (Plain.assignToVar _ _)) fun examinee => ?_
  refine Lays.andThen (flows_switch fun _ x hx => ?_) fun _ => ?_
  · simp at hx
    rcases hx with hx | hx <;> simp [hx]
  refine flows_startBlock {cont} (by intro x; simp) (by simpa using hne₁) ?_
  refine Lays.andThen (hb _) fun val => ?_
  refine Lays.andThen (flows_plain (Plain.assignToVar _ _)) fun _ => ?_
  refine Lays.andThen (flows_jump fun _ => by simp) fun _ => ?_
  exact flows_startBlock ∅ (by intro x; simp) (by simp) (Lays.pure _)

theorem flows_forIncrement (indexVar : Var) {increment condition : LabelRef}
    (h : alive → condition ∈ M) :
    Flows alive M {increment} true true (forIncrement indexVar increment condition) := by
  refine flows_startBlock ∅ (by intro x; simp) (by simp) ?_
  refine Lays.andThen (flows_plain (Plain.assignToVar _ _)) fun oneVar => ?_
  exact Lays.andThen (flows_plain (Plain.emit rfl)) fun _ => flows_jump h

theorem flows_forCondition (listVar indexVar optElemVar : Var) (listTy optElemTy : Ty)
    {condition body cont : LabelRef} (h : alive → body ∈ M ∧ cont ∈ M) :
    Flows alive M {condition} true true
      (forCondition env listVar indexVar optElemVar listTy optElemTy condition body cont) := by
  refine flows_startBlock ∅ (by intro x; simp) (by simp) ?_
  refine Lays.andThen (flows_quiet (Quiet.unwrap _)) fun funcRef => ?_
  refine Lays.andThen (flows_plain (Plain.assignToVar _ _)) fun newListVar => ?_
  refine Lays.andThen (flows_quiet (Quiet.removeLiveVariable _)) fun _ => ?_
  refine Lays.andThen (flows_plain (Plain.emit rfl)) fun _ => ?_
  refine Lays.andThen (flows_quiet Quiet.undroppedTmp) fun discriminant => ?_
  apply flows_switchCode
  intro ha x hx
  simp at hx
  rcases hx with hx | hx
  · rw [hx]
    exact (h ha).1
  · rw [hx]
    exact (h ha).2

theorem straight_forE (name : Meta Identifier) (he : Straight alive e.2) (hb : Straight alive b.2) :
    Straight alive (forE env name e b) := by
  intro M
  refine Lays.andThen (flows_quiet Quiet.state) fun current => ?_
  refine Lays.reserve (allocates_next _) fun cont _ _ => ?_
  refine Lays.reserve (allocates_wrap _ _) fun increment _ hincrement => ?_
  have hne : increment ≠ cont := fun h => hincrement (by simp [h])
  refine Lays.reserve (allocates_wrap _ _) fun condition _ hcondition => ?_
  have hne₁ : condition ≠ cont := fun h => hcondition (by simp [h])
  have hne₂ : condition ≠ increment := fun h => hcondition (by simp [h])
  refine Lays.reserve (allocates_wrap _ _) fun body _ hbody => ?_
  have hne₃ : body ≠ cont := fun h => hbody (by simp [h])
  have hne₄ : body ≠ increment := fun h => hbody (by simp [h])
  have hne₅ : body ≠ condition := fun h => hbody (by simp [h])
  refine Lays.andThen (flows_quiet Quiet.undroppedTmp) fun optElemVar => ?_
  refine Lays.andThen (flows_quiet (Quiet.declare _ _)) fun _ => ?_
  refine Lays.andThen (he _) fun listValue => ?_
  refine Lays.andThen (flows_plain (Plain.assignToVar _ _)) fun listVar => ?_
  refine Lays.andThen (flows_plain (Plain.assignToVar _ _)) fun indexVar => ?_
  refine Lays.andThen (flows_jump fun _ => by simp) fun _ => ?_
  have hset : insert body (insert condition (insert increment (insert cont (∅ : Set ℕ)))) =
      {increment} ∪ ({condition} ∪ {body, cont}) := by
    ext x
    simp
    tauto
  rw [hset]
  refine Lays.bind (flows_forIncrement _ fun _ => by simp) (fun _ => ?_)
    (by simp [hne, hne₂.symm, hne₄.symm])
  refine Lays.bind (flows_forCondition _ _ _ _ _ fun _ => by simp) (fun _ => ?_)
    (by simp [hne₁, hne₅.symm])
  refine flows_startBlock {cont} (by intro x; simp) (by simpa using hne₃) ?_
  refine Lays.andThen (flows_quiet Quiet.pushSlot) fun _ => ?_
  refine Lays.andThen (flows_quiet (Quiet.declare _ _)) fun _ => ?_
  refine Lays.andThen (flows_quiet (Quiet.pushLive _ _)) fun _ => ?_
  refine Lays.andThen (flows_quiet (Quiet.pushLive _ _)) fun _ => ?_
  refine Lays.andThen (flows_plain (Plain.doAssign _ _ _)) fun _ => ?_
  refine Lays.andThen (hb _) fun val => ?_
  refine Lays.andThen (flows_plain (Plain.assignToVar _ _)) fun _ => ?_
  refine Lays.andThen (flows_plain Plain.dropSlot) fun _ => ?_
  refine Lays.andThen (flows_jump fun _ => by simp) fun _ => ?_
  exact flows_startBlock ∅ (by intro x; simp) (by simp) (Lays.pure _)

theorem straight_questionMark (he : Straight alive e.2) : Straight alive (questionMark env e) := by
  intro M
  refine Lays.andThen (flows_quiet Quiet.state) fun current => ?_
  refine Lays.reserve (allocates_wrap _ _) fun none _ _ => ?_
  refine Lays.reserve (allocates_next _) fun continueLbl _ hcontinue => ?_
  have hne : continueLbl ≠ none := fun h => hcontinue (by simp [h])
  refine Lays.andThen (he _) fun examinee => ?_
  refine Lays.andThen (flows_plain (Plain.assignToVar _ _)) fun examinee => ?_
  refine Lays.andThen (flows_quiet Quiet.undroppedTmp) fun discriminant => ?_
  refine Lays.andThen (flows_switchCode fun _ x hx => ?_) fun _ => ?_
  · simp at hx
    rcases hx with hx | hx <;> simp [hx]
  refine flows_startBlock {continueLbl} (by intro x; simp; tauto) (by simpa using hne.symm) ?_
  refine Lays.andThen (flows_quiet Quiet.state) fun returnType => ?_
  refine Lays.andThen (flows_plain (Plain.makeEnum _ _ _)) fun val => ?_
  refine Lays.andThen (flows_returnValue val) fun _ => ?_
  exact flows_startBlock ∅ (by intro x; simp) (by simp) (Lays.pure _)

end Branches

/-! ### F-strings -/

theorem straight_fString {parts : List (MetaId × (String ⊕ Part))}
    (h : ∀ part ∈ parts, ∀ e : Part, part.2 = .inr e → Straight alive e.2) :
    Straight alive (fString env parts) := by
  have hparts (string : Var) (funcRef : ℕ) :
      Straight alive (appendParts env string funcRef parts) := by
    induction parts with
    | nil => exact Straight.pure ()
    | cons part parts ih =>
      obtain ⟨hpart, hparts⟩ := List.forall_mem_cons.mp h
      have hvalue : Straight alive (fStringPart env part) := by
        unfold fStringPart
        cases hcase : part.2 with
        | inl text => exact Straight.pure _
        | inr e =>
          exact (hpart e hcase).bind fun val => straight_normalizedFunctionCall _ _ (by simp)
      exact hvalue.bind fun newString => (Straight.plain (Plain.assignToVar _ _)).bind
        fun newString => (Straight.quiet (Quiet.callRuntime _ _ _ _)).bind fun val =>
        (Straight.quiet (Quiet.pushLive _ _)).bind fun _ =>
        (Straight.plain (Plain.doAssign _ _ _)).bind fun _ => ih hparts
  exact (Straight.plain (Plain.assignToVar _ _)).bind fun string =>
    (Straight.quiet (Quiet.unwrap _)).bind fun funcRef => (hparts string funcRef).bind fun _ =>
    Straight.pure _

end Lowering

end Roto.Mir
