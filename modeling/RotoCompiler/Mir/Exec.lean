import RotoCompiler.Lib.FieldPaths
import RotoCompiler.Mir.Syntax

/-!
# Runs of MIR instructions

A variable holds a value with parts. What the values other than clones and moves compute, and
what clones and drops do outside of the variables, is a parameter.
-/

namespace Roto.Mir
open FieldPaths

abbrev Held (A : Type) := Content Projection A

/-- The constants and the context of a program, and what its operations do. -/
structure Machine (A H : Type) where
  constants : ResolvedName → Option (Held A)
  context : ℕ → Option (Held A)
  clone : Held A → H → H
  drop : Held A → H → H
  tag : Ty → Identifier → Held A → Held A
  compute : Value → (Var → Held A) → H → Option (Held A × H)

structure State (A H : Type) where
  vars : Var → Held A
  heap : H

variable {A H : Type}

namespace State

/-- What a place holds. -/
def read (s : State A H) (place : Place) : Held A := part (s.vars place.var) place.projection

def write (s : State A H) (place : Place) (new : Held A) : State A H where
  vars := Function.update s.vars place.var (put (s.vars place.var) place.projection new)
  heap := s.heap

@[simp] theorem read_write_self (s : State A H) (place : Place) (new : Held A) :
    (s.write place new).read place = new := by
  simp [read, write]

theorem write_vars_ne (s : State A H) {place : Place} {var : Var} (new : Held A)
    (h : var ≠ place.var) : (s.write place new).vars var = s.vars var := by
  unfold write
  exact Function.update_of_ne h _ _

theorem write_part_apart (s : State A H) (place : Place) (new : Held A) {q : List Projection}
    (h : Apart place.projection q) :
    part ((s.write place new).vars place.var) q = part (s.vars place.var) q := by
  unfold write
  simp only [Function.update_self]
  exact part_put_apart _ _ h

end State

/-- The value with what is left outside of the variables. -/
def Machine.eval (m : Machine A H) (s : State A H) : Value → Option (Held A × H)
  | .clone place => some (s.read place, m.clone (s.read place) s.heap)
  | .move var => some (s.vars var, s.heap)
  | .constant name _ => (m.constants name).map fun c => (c, m.clone c s.heap)
  | .context offset => (m.context offset).map fun c => (c, m.clone c s.heap)
  | value => m.compute value s.vars s.heap

/-- One instruction in a block; the others end it. -/
def Machine.step (m : Machine A H) (s : State A H) : Instruction → Option (State A H)
  | .assign dest _ value =>
    (m.eval s value).map fun r => { s with heap := r.2 }.write dest r.1
  | .setDiscriminant dest ty variant =>
    some { s with vars := Function.update s.vars dest (m.tag ty variant (s.vars dest)) }
  | .drop val _ => some { s with heap := m.drop (s.read val) s.heap }
  | .jump _ => none
  | .switch _ _ _ => none
  | .ret _ => none

def Machine.exec (m : Machine A H) : State A H → List Instruction → Option (State A H)
  | s, [] => some s
  | s, i :: is => (m.step s i).bind fun s => m.exec s is

end Roto.Mir
