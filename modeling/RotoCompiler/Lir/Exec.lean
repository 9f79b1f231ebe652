import RotoCompiler.Lib.Bytes
import RotoCompiler.Lir.Generated
import Mathlib.Logic.Relation
import Mathlib.Logic.Function.Basic

/-!
# Running the LIR (lir/eval.rs, codegen/mod.rs)

A machine with a frame for each function that is running, in the way of `eval`, and with the
meaning that `codegen` gives to the instructions. Registered functions are parameters: they
see the whole memory.
-/

namespace Roto.Lib.Memory

/-- The `n` bytes from an address on as a number, the lowest byte first. -/
def bits (m : Memory) : ℕ → ℕ → ℕ
  | 0, _ => 0
  | n + 1, a => (m a).toNat + 256 * m.bits n (a + 1)

def writeBits (m : Memory) (n a val : ℕ) : Memory :=
  m.write a fun k : Fin n => UInt8.ofNat (val / 256 ^ k.val)

/-- `memmove`, from one place in a memory to another. -/
def move (m : Memory) (dest src len : ℕ) : Memory := m.copy dest (fun a => m (src + a)) len

end Roto.Lib.Memory

namespace Roto.Lir
open Mir (LabelRef Ty)
open Lib (Memory)

/-! ### Registers -/

def IrValue.signed (v : IrValue) : ℤ :=
  if v.bits < 2 ^ (8 * v.ty.bytes - 1) then v.bits else v.bits - 2 ^ (8 * v.ty.bytes)

def IntCmp.holds (cmp : IntCmp) (l r : IrValue) : Bool :=
  match cmp with
  | eq => l.bits = r.bits
  | ne => l.bits ≠ r.bits
  | ult => l.bits < r.bits
  | ule => l.bits ≤ r.bits
  | ugt => l.bits > r.bits
  | uge => l.bits ≥ r.bits
  | slt => l.signed < r.signed
  | sle => l.signed ≤ r.signed
  | sgt => l.signed > r.signed
  | sge => l.signed ≥ r.signed

/-- The bits of the infinity of a float type. -/
def floatInf (bytes : ℕ) : ℕ := if bytes = 4 then 0x7F800000 else 0x7FF0000000000000

def isNaN (bytes bits : ℕ) : Bool := floatInf bytes < bits % 2 ^ (8 * bytes - 1)

/-- Floats in the order of their values, which has one place for both zeros. -/
def floatKey (bytes bits : ℕ) : ℤ :=
  if bits < 2 ^ (8 * bytes - 1) then bits else -(bits % 2 ^ (8 * bytes - 1) : ℕ)

/-- Equality of floats: nothing is equal to a NaN. -/
def floatEq (bytes l r : ℕ) : Bool :=
  !isNaN bytes l && !isNaN bytes r && floatKey bytes l = floatKey bytes r

def floatLt (bytes l r : ℕ) : Bool :=
  !isNaN bytes l && !isNaN bytes r && floatKey bytes l < floatKey bytes r

def FloatCmp.holds (cmp : FloatCmp) (l r : IrValue) : Bool :=
  let bytes := l.ty.bytes
  match cmp with
  | eq => floatEq bytes l.bits r.bits
  | ne => !floatEq bytes l.bits r.bits
  | lt => floatLt bytes l.bits r.bits
  | le => floatLt bytes l.bits r.bits || floatEq bytes l.bits r.bits
  | gt => floatLt bytes r.bits l.bits
  | ge => floatLt bytes r.bits l.bits || floatEq bytes l.bits r.bits

def IrType.isFloat : IrType → Bool
  | f32 | f64 => true
  | _ => false

/-- `fneg` and `ineg`. -/
def IrValue.negate (v : IrValue) : IrValue :=
  let width := 8 * v.ty.bytes
  if v.ty.isFloat then ⟨v.ty, v.bits ^^^ 2 ^ (width - 1)⟩
  else ⟨v.ty, (2 ^ width - v.bits) % 2 ^ width⟩

abbrev Regs := Var → Option IrValue

/-- A function without a context passes a null pointer on. -/
def Regs.operand (regs : Regs) : Operand → Option IrValue
  | .place v => if v.kind = .context then some ((regs v).getD (.pointer 0)) else regs v
  | .value v => some v

def Regs.set (regs : Regs) (v : Var) (x : IrValue) : Regs := Function.update regs v (some x)

/-- Takes the result of a call. -/
def Regs.answered (regs : Regs) : Option Var → Option IrValue → Regs
  | some v, some x => regs.set v x
  | _, _ => regs

/-! ### Instructions without control flow -/

/-- The calls of functions of registered types that make or end a value. -/
inductive Event where
  | clone (typeId : ℕ)
  | drop (typeId : ℕ)
  deriving DecidableEq, Repr

inductive Arith where
  | add | sub | mul | div | mod
  deriving DecidableEq, Repr

/-- The arithmetic of floats, and the code that is not Roto's: the functions of registered
types, registered functions and the addresses of what is in no frame. -/
structure Externs where
  floatOp : Arith → (bytes left right : ℕ) → ℕ
  initString : String → Memory → ℕ → Memory
  eqFn : ℕ → Memory → ℕ → ℕ → Bool
  cloneFn : ℕ → Memory → (dest src : ℕ) → Memory
  dropFn : ℕ → Memory → ℕ → Memory
  callRuntime : ℕ → List IrValue → Memory → Memory
  constantAddress : ResolvedName → ℕ
  functionAddress : FunName → ℕ

def IrValue.wrap (ty : IrType) (x : ℤ) : IrValue := ⟨ty, (x % 2 ^ (8 * ty.bytes)).toNat⟩

/-- A division traps where the divisor is zero or the quotient has no place. -/
def Externs.arith (env : Externs) (op : Arith) (signed : Bool) (l r : IrValue) : Option IrValue :=
  if l.ty.isFloat then some ⟨l.ty, env.floatOp op l.ty.bytes l.bits r.bits⟩
  else
    match op with
    | .add => some (.wrap l.ty (l.bits + r.bits))
    | .sub => some (.wrap l.ty (l.bits - r.bits))
    | .mul => some (.wrap l.ty (l.bits * r.bits))
    | .div =>
      if r.bits = 0 then none
      else if !signed then some ⟨l.ty, l.bits / r.bits⟩
      else if l.bits = 2 ^ (8 * l.ty.bytes - 1) ∧ r.signed = -1 then none
      else some (.wrap l.ty (l.signed.tdiv r.signed))
    | .mod =>
      if r.bits = 0 then none
      else if !signed then some ⟨l.ty, l.bits % r.bits⟩
      else some (.wrap l.ty (l.signed.tmod r.signed))

/-- What an instruction sees and changes. -/
structure Locals where
  regs : Regs
  mem : Memory
  events : List Event

def Locals.set (s : Locals) (v : Var) (x : IrValue) : Locals := { s with regs := s.regs.set v x }

def Externs.execArith (env : Externs) (s : Locals) (op : Arith) (signed : Bool) (dest : Var)
    (left right : Operand) : Option Locals := do
  let l ← s.regs.operand left
  let r ← s.regs.operand right
  let x ← env.arith op signed l r
  return s.set dest x

/-- The slot of a literal is the one of its variable. -/
def Externs.exec (env : Externs) (s : Locals) : Instruction → Option Locals
  | .assign dest val _ => do
    let x ← s.regs.operand val
    return s.set dest x
  | .constantAddress dest name => return s.set dest (.pointer (env.constantAddress name))
  | .functionAddress dest name => return s.set dest (.pointer (env.functionAddress name))
  | .callRuntime func args => do
    let xs ← args.mapM s.regs.operand
    return { s with mem := env.callRuntime func xs s.mem }
  | .intCmp dest cmp left right => do
    let l ← s.regs.operand left
    let r ← s.regs.operand right
    return s.set dest (.bool (cmp.holds l r))
  | .floatCmp dest cmp left right => do
    let l ← s.regs.operand left
    let r ← s.regs.operand right
    return s.set dest (.bool (cmp.holds l r))
  | .add dest left right => env.execArith s .add false dest left right
  | .sub dest left right => env.execArith s .sub false dest left right
  | .mul dest left right => env.execArith s .mul false dest left right
  | .div dest signed left right => env.execArith s .div signed dest left right
  | .mod dest signed left right => env.execArith s .mod signed dest left right
  | .fdiv dest left right => env.execArith s .div false dest left right
  | .not dest val => do
    let x ← s.regs.operand val
    return s.set dest (.bool (x.bits = 0))
  | .negate dest val => do
    let x ← s.regs.operand val
    return s.set dest x.negate
  | .offset dest src off => do
    let p ← s.regs.operand src
    return s.set dest (.pointer (p.bits + off))
  | .initializeBytes dest bytes _ => do
    let p ← s.regs dest
    return { s with mem := s.mem.write p.bits fun k : Fin bytes.length => bytes[k] }
  | .initString dest string => do
    let p ← s.regs dest
    return { s with mem := env.initString string s.mem p.bits }
  | .write dest val => do
    let x ← s.regs.operand val
    let p ← s.regs.operand dest
    return { s with mem := s.mem.writeBits x.ty.bytes p.bits x.bits }
  | .read dest src ty => do
    let p ← s.regs.operand src
    return s.set dest ⟨ty, s.mem.bits ty.bytes p.bits⟩
  | .copy dest src size => do
    let p ← s.regs.operand dest
    let q ← s.regs.operand src
    return { s with mem := s.mem.move p.bits q.bits size }
  | .clone dest src cloneFn => do
    let p ← s.regs.operand dest
    let q ← s.regs.operand src
    return { s with
      mem := env.cloneFn cloneFn s.mem p.bits q.bits, events := s.events ++ [.clone cloneFn] }
  | .eq dest left right eqFn => do
    let p ← s.regs.operand left
    let q ← s.regs.operand right
    return s.set dest (.bool (env.eqFn eqFn s.mem p.bits q.bits))
  | .drop var dropFn => do
    let p ← s.regs.operand var
    return { s with
      mem := env.dropFn dropFn s.mem p.bits, events := s.events ++ [.drop dropFn] }
  | .jump _ | .switch .. | .call .. | .ret _ => none

/-! ### The machine -/

abbrev Program := List Item

/-- A function that waits for the one it called. -/
structure Caller where
  blocks : List Block
  rest : List Instruction
  regs : Regs
  dest : Option Var
  top : ℕ

/-- What is left of the block that is being run, and the end of the stack memory. -/
structure Machine where
  blocks : List Block
  rest : List Instruction
  locals : Locals
  callers : List Caller
  top : ℕ

inductive Config where
  | running (m : Machine)
  | done (val : Option IrValue) (s : Locals)

def findBlock (blocks : List Block) (label : LabelRef) : Option (List Instruction) :=
  (blocks.find? fun b => b.label = label).map Block.instructions

/-- Gives each stack slot its place. -/
def allocate : List (Var × ValueOrSlot) → Regs → ℕ → Regs × ℕ
  | [], regs, top => (regs, top)
  | (_, .val _) :: vars, regs, top => allocate vars regs top
  | (v, .stackSlot l) :: vars, regs, top =>
    let p := nextMultipleOf top l.align
    allocate vars (regs.set v (.pointer p)) (p + l.size)

/-- The variables of a function when it is entered. -/
def Item.params (f : Item) (ctx returnPtr : Option IrValue) (args : List IrValue) : Regs :=
  let regs : Regs := fun v =>
    if v = ⟨f.scope, .context⟩ then ctx
    else if v = ⟨f.scope, .ret⟩ then returnPtr
    else none
  (f.irSignature.parameters.zip args).foldl
    (fun regs p => regs.set ⟨f.scope, .explicit p.1.1⟩ p.2) regs

def Caller.resume (c : Caller) (val : Option IrValue) (s : Locals) (callers : List Caller) :
    Machine where
  blocks := c.blocks
  rest := c.rest
  locals := { s with regs := c.regs.answered c.dest val }
  callers := callers
  top := c.top

/-- The machine at the start of a function. -/
def Item.enter (f : Item) (ctx returnPtr : Option IrValue) (args : List IrValue) (s : Locals)
    (callers : List Caller) (top : ℕ) : Option Machine := do
  let body ← findBlock f.blocks f.entryBlock
  let (regs, top) := allocate f.vars (f.params ctx returnPtr args) top
  return ⟨f.blocks, body, { s with regs := regs }, callers, top⟩

def Program.find (p : Program) (name : FunName) : Option Item := p.find? fun f => f.name = name

variable (p : Program) (env : Externs)

def step (m : Machine) : Option Config :=
  match m.rest with
  | [] => none
  | .jump label :: _ => do
    let is ← findBlock m.blocks label
    return .running { m with rest := is }
  | .switch examinee branches default :: _ => do
    let x ← m.locals.regs.operand examinee
    let label := ((branches.find? fun b => b.1 = x.bits).map (·.2)).getD default
    let is ← findBlock m.blocks label
    return .running { m with rest := is }
  | .call dest ctx func args returnPtr :: rest => do
    let f ← p.find func
    let operand := m.locals.regs.operand
    let xs ← args.mapM operand
    let c : Caller := ⟨m.blocks, rest, m.locals.regs, dest.map (·.1), m.top⟩
    let callee ← f.enter (ctx.bind operand) ((returnPtr.map .place).bind operand) xs m.locals
      (c :: m.callers) m.top
    return .running callee
  | .ret val :: _ => do
    let x := val.bind m.locals.regs.operand
    match m.callers with
    | [] => return .done x m.locals
    | c :: callers => return .running (c.resume x m.locals callers)
  | i :: rest => do
    let s ← env.exec m.locals i
    return .running { m with rest := rest, locals := s }

/-- One step; there is none from the end. -/
def Config.next : Config → Option Config
  | running m => step p env m
  | done _ _ => none

/-- Some number of steps. The machine is deterministic, so there is one run only. -/
def Steps : Config → Config → Prop := Relation.ReflTransGen fun c c' => c.next p env = some c'

/-- The code runs to its end, wherever it stands. -/
def Executes (code : List Instruction) (s s' : Locals) : Prop :=
  ∀ blocks rest callers top,
    Steps p env (.running ⟨blocks, code ++ rest, s, callers, top⟩)
      (.running ⟨blocks, rest, s', callers, top⟩)

/-- A call of the function comes back with `val`. -/
def Answers (func : FunName) (returnPtr : Option IrValue) (args : List IrValue) (s : Locals)
    (val : Option IrValue) (s' : Locals) : Prop :=
  ∃ f, p.find func = some f ∧ ∀ c callers top, ∃ m,
    f.enter none returnPtr args s (c :: callers) top = some m ∧
      Steps p env (.running m) (.running (c.resume val s' callers))

variable {p env}

/-! ### Rules -/

theorem Steps.trans {c₁ c₂ c₃ : Config} (h₁ : Steps p env c₁ c₂) (h₂ : Steps p env c₂ c₃) :
    Steps p env c₁ c₃ :=
  Relation.ReflTransGen.trans h₁ h₂

theorem Steps.head {m : Machine} {c c' : Config} (h : step p env m = some c)
    (hs : Steps p env c c') : Steps p env (.running m) c' :=
  Relation.ReflTransGen.head h hs

/-- What a run ends with is determined. -/
theorem Steps.unique {c c₁ c₂ : Config} (h₁ : Steps p env c c₁) (h₂ : Steps p env c c₂)
    (hend₁ : c₁.next p env = none) (hend₂ : c₂.next p env = none) : c₁ = c₂ := by
  have hunique : Relator.RightUnique fun c c' => Config.next p env c = some c' :=
    fun a b b' hb hb' => Option.some.inj (hb.symm.trans hb')
  have hstop : ∀ {c c' : Config}, c.next p env = none → Steps p env c c' → c' = c := by
    intro c c' hend hs
    rcases Relation.ReflTransGen.cases_head hs with heq | ⟨d, hd, -⟩
    · exact heq.symm
    · rw [hend] at hd
      cases hd
  rcases Relation.ReflTransGen.total_of_right_unique hunique h₁ h₂ with h | h
  · exact (hstop hend₁ h).symm
  · exact hstop hend₂ h

theorem Executes.nil (s : Locals) : Executes p env [] s s :=
  fun _ _ _ _ => Relation.ReflTransGen.refl

theorem Executes.append {code code' : List Instruction} {s s₁ s₂ : Locals}
    (h : Executes p env code s s₁) (h' : Executes p env code' s₁ s₂) :
    Executes p env (code ++ code') s s₂ := by
  intro blocks rest callers top
  rw [List.append_assoc]
  exact (h blocks (code' ++ rest) callers top).trans (h' blocks rest callers top)

theorem step_exec {m : Machine} {i : Instruction} {rest : List Instruction} {s : Locals}
    (hrest : m.rest = i :: rest) (h : env.exec m.locals i = some s) :
    step p env m = some (.running { m with rest := rest, locals := s }) := by
  unfold step
  rw [hrest]
  cases i
  case jump => cases h
  case switch => cases h
  case call => cases h
  case ret => cases h
  all_goals
    simp only [h]
    rfl

theorem Executes.one {i : Instruction} {s s' : Locals} (h : env.exec s i = some s') :
    Executes p env [i] s s' :=
  fun _ _ _ _ => Steps.head (step_exec rfl h) Relation.ReflTransGen.refl

theorem Executes.call {dest : Option (Var × IrType)} {func : FunName} {args : List Operand}
    {returnPtr : Option Var} {xs : List IrValue} {ptr : Option IrValue} {s s' : Locals}
    {val : Option IrValue} (h : Answers p env func ptr xs s val s')
    (hargs : args.mapM s.regs.operand = some xs)
    (hptr : (returnPtr.map Operand.place).bind s.regs.operand = ptr) :
    Executes p env [.call dest none func args returnPtr] s
      { s' with regs := s.regs.answered (dest.map (·.1)) val } := by
  intro blocks rest callers top
  obtain ⟨f, hf, hrun⟩ := h
  obtain ⟨m, hm, hsteps⟩ := hrun ⟨blocks, rest, s.regs, dest.map (·.1), top⟩ callers top
  refine Steps.head (c := .running m) ?_ hsteps
  simp only [step, List.singleton_append, Option.bind_eq_bind, hf, hargs, hptr, Option.bind_none,
    Option.bind_some, hm]
  rfl

theorem step_jump {blocks : List Block} {label : LabelRef} {rest is : List Instruction}
    {s : Locals} {callers : List Caller} {top : ℕ} (h : findBlock blocks label = some is) :
    step p env ⟨blocks, .jump label :: rest, s, callers, top⟩ =
      some (.running ⟨blocks, is, s, callers, top⟩) := by
  simp only [step, h]
  rfl

theorem step_switch {blocks : List Block} {examinee : Operand} {branches : List (ℕ × LabelRef)}
    {default : LabelRef} {rest is : List Instruction} {s : Locals} {callers : List Caller}
    {top : ℕ} {x : IrValue} (hx : s.regs.operand examinee = some x)
    (h : findBlock blocks
      (((branches.find? fun b => b.1 = x.bits).map (·.2)).getD default) = some is) :
    step p env ⟨blocks, .switch examinee branches default :: rest, s, callers, top⟩ =
      some (.running ⟨blocks, is, s, callers, top⟩) := by
  simp only [step, hx, Option.bind_eq_bind, Option.bind_some, h]
  rfl

theorem step_ret {blocks : List Block} {val : Option Operand} {rest : List Instruction}
    {s : Locals} {c : Caller} {callers : List Caller} {top : ℕ} :
    step p env ⟨blocks, .ret val :: rest, s, c :: callers, top⟩ =
      some (.running (c.resume (val.bind s.regs.operand) s callers)) :=
  rfl

end Roto.Lir
