import RotoCompiler.Lir.Emission
import RotoCompiler.Lir.Exec

/-!
# Emitted code

What a piece of lowering adds to the current block, and what a run of the added code changes.
New code writes to new temporaries only, so what was in registers before stays there.
-/

namespace Roto.Lir
open Mir

variable {α β : Type}

namespace Lower

theorem bind_of {m : Lower α} {k : α → Lower β} {s s₁ : Lowerer} {a : α} {r : Option (β × Lowerer)}
    (hm : m s = some (a, s₁)) (hk : k a s₁ = r) : (m >>= k) s = r := by
  show (m s).bind _ = r
  rw [hm]
  exact hk

end Lower

/-! ### Queues of generated functions -/

inductive Queue where
  | clones | drops | eqs
  deriving DecidableEq

def Lowerer.queue (s : Lowerer) : Queue → List Ty
  | .clones => s.clonesToGenerate
  | .drops => s.dropsToGenerate
  | .eqs => s.eqToGenerate

/-- Nothing new in any queue. -/
def noneNew : Queue → List Ty := fun _ => []

def oneNew (queue : Queue) (ty : Ty) : Queue → List Ty := fun q => if q = queue then [ty] else []

/-! ### Straight code -/

/-- The computation ends with `a`, adds `code` to the current block and `new` to the queues. -/
structure Emits (m : Lower α) (s : Lowerer) (a : α) (code : List Instruction)
    (new : Queue → List Ty) (s' : Lowerer) : Prop where
  run : m s = some (a, s')
  blocks : s'.blocks = s.blocks
  label : s'.label = s.label
  instructions : s'.instructions = s.instructions ++ code
  scope : s'.functionScope = s.functionScope
  labels : s'.labels = s.labels
  tmpIdx : s.tmpIdx ≤ s'.tmpIdx
  vars : ∃ vars, s'.vars = s.vars ++ vars ∧ ∀ v ∈ vars, ∃ ty, v.2 = .val ty
  queue : ∀ q, s'.queue q = s.queue q ++ new q
  straight : ∀ i ∈ code, i.isTerminator = false

namespace Emits
variable {s s₁ s₂ : Lowerer}

theorem pure (a : α) (s : Lowerer) : Emits (Pure.pure a) s a [] noneNew s where
  run := rfl
  blocks := rfl
  label := rfl
  instructions := (List.append_nil _).symm
  scope := rfl
  labels := rfl
  tmpIdx := le_rfl
  vars := ⟨[], (List.append_nil _).symm, fun _ h => nomatch h⟩
  queue _ := (List.append_nil _).symm
  straight _ h := nomatch h

theorem bind {m : Lower α} {k : α → Lower β} {a : α} {b : β} {code₁ code₂ : List Instruction}
    {new₁ new₂ : Queue → List Ty} (h₁ : Emits m s a code₁ new₁ s₁)
    (h₂ : Emits (k a) s₁ b code₂ new₂ s₂) :
    Emits (m >>= k) s b (code₁ ++ code₂) (fun q => new₁ q ++ new₂ q) s₂ where
  run := Lower.bind_of h₁.run h₂.run
  blocks := h₂.blocks.trans h₁.blocks
  label := h₂.label.trans h₁.label
  instructions := by rw [h₂.instructions, h₁.instructions, List.append_assoc]
  scope := h₂.scope.trans h₁.scope
  labels := h₂.labels.trans h₁.labels
  tmpIdx := h₁.tmpIdx.trans h₂.tmpIdx
  vars := by
    obtain ⟨vars₁, heq₁, hval₁⟩ := h₁.vars
    obtain ⟨vars₂, heq₂, hval₂⟩ := h₂.vars
    refine ⟨vars₁ ++ vars₂, by rw [heq₂, heq₁, List.append_assoc], fun v hv => ?_⟩
    rcases List.mem_append.mp hv with hv | hv
    · exact hval₁ v hv
    · exact hval₂ v hv
  queue q := by rw [h₂.queue, h₁.queue, List.append_assoc]
  straight i hi := by
    rcases List.mem_append.mp hi with hi | hi
    · exact h₁.straight i hi
    · exact h₂.straight i hi

theorem emit {i : Instruction} (h : i.isTerminator = false) (s : Lowerer) :
    Emits (emit i) s () [i] noneNew { s with instructions := s.instructions ++ [i] } where
  run := rfl
  blocks := rfl
  label := rfl
  instructions := rfl
  scope := rfl
  labels := rfl
  tmpIdx := le_rfl
  vars := ⟨[], (List.append_nil _).symm, fun _ h => nomatch h⟩
  queue q := by cases q <;> exact (List.append_nil _).symm
  straight j hj := by
    obtain rfl := List.mem_singleton.mp hj
    exact h

theorem newTmp (ty : IrType) (s : Lowerer) :
    Emits (newTmp ty) s ⟨s.functionScope, .tmp s.tmpIdx⟩ [] noneNew
      { s with
        tmpIdx := s.tmpIdx + 1, vars := s.vars ++ [(⟨s.functionScope, .tmp s.tmpIdx⟩, .val ty)] } where
  run := rfl
  blocks := rfl
  label := rfl
  instructions := (List.append_nil _).symm
  scope := rfl
  labels := rfl
  tmpIdx := Nat.le_succ _
  vars := by
    refine ⟨_, rfl, fun v hv => ?_⟩
    obtain rfl := List.mem_singleton.mp hv
    exact ⟨ty, rfl⟩
  queue q := by cases q <;> exact (List.append_nil _).symm
  straight _ h := nomatch h

/-- The same with the code and the queues in another form. -/
theorem cast {m : Lower α} {a : α} {code code' : List Instruction} {new new' : Queue → List Ty}
    (h : Emits m s a code new s₁) (hcode : code = code') (hnew : new = new') :
    Emits m s a code' new' s₁ := by
  rw [← hcode, ← hnew]
  exact h

end Emits

/-! ### Registers that stay -/

/-- The variable is none of the temporaries that are to come. -/
def Old (s : Lowerer) (v : Var) : Prop := ∀ i, s.tmpIdx ≤ i → v ≠ ⟨s.functionScope, .tmp i⟩

/-- All variables that are old in `s` have kept their values. -/
def RegsKept (s : Lowerer) (regs regs' : Regs) : Prop := ∀ v, Old s v → regs' v = regs v

/-- Code runs from `l` to `l'` and keeps what is old in `s`. -/
structure Runs (p : Program) (env : Externs) (s : Lowerer) (code : List Instruction)
    (l l' : Locals) : Prop where
  executes : Executes p env code l l'
  kept : RegsKept s l.regs l'.regs

section
variable {s s₁ : Lowerer} {v : Var} {regs regs' : Regs} {p : Program} {env : Externs}
  {code code₁ : List Instruction} {l l₁ l₂ : Locals}

theorem Old.mono (h : Old s v) (hscope : s₁.functionScope = s.functionScope)
    (hle : s.tmpIdx ≤ s₁.tmpIdx) : Old s₁ v := by
  intro i hi
  rw [hscope]
  exact h i (hle.trans hi)

theorem Emits.old {m : Lower α} {a : α} {new : Queue → List Ty} (h : Emits m s a code new s₁)
    (hv : Old s v) : Old s₁ v :=
  hv.mono h.scope h.tmpIdx

theorem old_explicit (s : Lowerer) (scope : ScopeRef) (x : Identifier) :
    Old s ⟨scope, .explicit x⟩ := by
  intro i _ h
  cases h

theorem old_ret (s : Lowerer) (scope : ScopeRef) : Old s ⟨scope, .ret⟩ := by
  intro i _ h
  cases h

theorem old_tmp {i : ℕ} (h : i < s.tmpIdx) : Old s ⟨s.functionScope, .tmp i⟩ := by
  intro j hj heq
  cases heq
  omega

theorem RegsKept.operand (h : RegsKept s regs regs') (hv : Old s v) :
    regs'.operand (.place v) = regs.operand (.place v) := by
  simp only [Regs.operand, h v hv]

theorem operand_set_tmp (regs : Regs) (scope : ScopeRef) (i : ℕ) (x : IrValue) :
    (regs.set ⟨scope, .tmp i⟩ x).operand (.place ⟨scope, .tmp i⟩) = some x := by
  simp [Regs.operand, Regs.set]

theorem RegsKept.set_tmp (s : Lowerer) (regs : Regs) (x : IrValue) :
    RegsKept s regs (regs.set ⟨s.functionScope, .tmp s.tmpIdx⟩ x) := by
  intro v hv
  exact Function.update_of_ne (hv s.tmpIdx le_rfl) _ _

theorem Runs.nil (s : Lowerer) (l : Locals) : Runs p env s [] l l where
  executes := .nil l
  kept _ _ := rfl

theorem Runs.append (h : Runs p env s code l l₁) (h₁ : Runs p env s₁ code₁ l₁ l₂)
    (hscope : s₁.functionScope = s.functionScope) (hle : s.tmpIdx ≤ s₁.tmpIdx) :
    Runs p env s (code ++ code₁) l l₂ where
  executes := h.executes.append h₁.executes
  kept v hv := (h₁.kept v (hv.mono hscope hle)).trans (h.kept v hv)

/-- One instruction that writes to the next temporary. -/
theorem Runs.set {i : Instruction} {x : IrValue} (s : Lowerer)
    (h : env.exec l i = some (l.set ⟨s.functionScope, .tmp s.tmpIdx⟩ x)) :
    Runs p env s [i] l (l.set ⟨s.functionScope, .tmp s.tmpIdx⟩ x) where
  executes := .one h
  kept := .set_tmp s l.regs x

/-- The code computes `x` in `out`, and nothing but registers changes. -/
def Gives (p : Program) (env : Externs) (s : Lowerer) (code : List Instruction) (l : Locals)
    (out : Operand) (x : IrValue) : Prop :=
  ∃ l', Runs p env s code l l' ∧ l'.mem = l.mem ∧ l'.events = l.events ∧
    l'.regs.operand out = some x

theorem Gives.set {i : Instruction} {x : IrValue} (s : Lowerer)
    (h : env.exec l i = some (l.set ⟨s.functionScope, .tmp s.tmpIdx⟩ x)) :
    Gives p env s [i] l (.place ⟨s.functionScope, .tmp s.tmpIdx⟩) x :=
  ⟨_, .set s h, rfl, rfl, operand_set_tmp l.regs s.functionScope s.tmpIdx x⟩

/-- Code after code that computed something. -/
theorem Gives.append {m : Lower α} {a : α} {new : Queue → List Ty} {out out₁ : Operand}
    {x y : IrValue} (hemits : Emits m s a code new s₁) (h : Gives p env s code l out x)
    (hnext : ∀ l', RegsKept s l.regs l'.regs → l'.mem = l.mem →
      l'.regs.operand out = some x → Gives p env s₁ code₁ l' out₁ y) :
    Gives p env s (code ++ code₁) l out₁ y := by
  obtain ⟨l', hruns, hmem, hevents, hout⟩ := h
  obtain ⟨l'', hruns', hmem', hevents', hout'⟩ := hnext l' hruns.kept hmem hout
  exact ⟨l'', hruns.append hruns' hemits.scope hemits.tmpIdx, hmem'.trans hmem,
    hevents'.trans hevents, hout'⟩

end

/-! ### Pointers and reads -/

/-- An instruction that writes to a new temporary. -/
theorem emits_tmp (ty : IrType) (i : Var → Instruction) (r : Var → α) (s : Lowerer)
    (h : ∀ v, (i v).isTerminator = false) :
    ∃ s', Emits (do let v ← newTmp ty; emit (i v); return r v) s
        (r ⟨s.functionScope, .tmp s.tmpIdx⟩) [i ⟨s.functionScope, .tmp s.tmpIdx⟩] noneNew s' ∧
      Old s' ⟨s.functionScope, .tmp s.tmpIdx⟩ := by
  have hemit := fun (v : Var) (t : Lowerer) =>
    (Emits.emit (h v) t).bind (k := fun _ => pure (r v)) (.pure _ _)
  have hbind := (Emits.newTmp ty s).bind (k := fun v => do emit (i v); return r v) (hemit _ _)
  exact ⟨_, hbind.cast rfl rfl, old_tmp (Nat.lt_succ_self _)⟩

/-- An offset of a pointer. There is no code for the offset zero. -/
theorem offset_gives {s : Lowerer} {v : Var} (hv : Old s v) (off : ℕ) :
    ∃ out code s', Emits (offset v off) s out code noneNew s' ∧ Old s' out ∧
      ∀ (p : Program) (env : Externs) (l : Locals) (a : ℕ),
        l.regs.operand (.place v) = some (.pointer a) →
          Gives p env s code l (.place out) (.pointer (a + off)) := by
  by_cases hoff : off = 0
  · refine ⟨v, [], s, ?_, hv, fun p env l a ha => ⟨l, .nil s l, rfl, rfl, ?_⟩⟩
    · rw [offset, if_pos hoff]
      exact .pure v s
    · rw [hoff]
      exact ha
  · obtain ⟨s', hemits, hold⟩ :=
      emits_tmp .pointer (fun new => .offset new (.place v) off) (fun new => new) s fun _ => rfl
    rw [offset, if_neg hoff]
    refine ⟨_, _, s', hemits, hold, fun p env l a ha => .set s ?_⟩
    · simp only [Externs.exec, ha]
      rfl

theorem readTmp_gives (s : Lowerer) (v : Var) (ty : IrType) :
    ∃ out code s', Emits (readTmp v ty) s (.place out) code noneNew s' ∧ Old s' out ∧
      ∀ (p : Program) (env : Externs) (l : Locals) (a : ℕ),
        l.regs.operand (.place v) = some (.pointer a) →
          Gives p env s code l (.place out) ⟨ty, l.mem.bits ty.bytes a⟩ := by
  obtain ⟨s', hemits, hold⟩ := emits_tmp ty (fun dest => .read dest (.place v) ty) Operand.place s
    fun _ => rfl
  refine ⟨_, _, s', hemits, hold, fun p env l a ha => .set s ?_⟩
  simp only [Externs.exec, ha]
  rfl

end Roto.Lir
