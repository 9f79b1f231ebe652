import Mathlib.Data.List.Infix
import Mathlib.Logic.Function.Basic

/-!
# Values with parts, and stores of them

A value is what it holds at each path of labels. Writing one part changes what lies below its
path and nothing else.
-/

namespace FieldPaths

/-- What a value holds at each path. -/
abbrev Content (L A : Type) := List L → Option A

/-- The part of a value at a path. -/
def part {L A : Type} (c : Content L A) (path : List L) : Content L A := fun below => c (path ++ below)

/-- Neither path leads into the other. -/
def Apart {L : Type} (p q : List L) : Prop := ¬ p <+: q ∧ ¬ q <+: p

variable {L A : Type}

theorem Apart.not_prefix_append {p q : List L} (h : Apart p q) (below : List L) :
    ¬ p <+: q ++ below := by
  intro hpre
  have hq : q <+: q ++ below := List.prefix_append q below
  rcases Nat.le_total p.length q.length with hle | hle
  · exact h.1 (List.prefix_of_prefix_length_le hpre hq hle)
  · exact h.2 (List.prefix_of_prefix_length_le hq hpre hle)

@[simp] theorem part_nil (c : Content L A) : part c [] = c := rfl

variable [DecidableEq L]

/-- The value with another part at a path. -/
def put (c : Content L A) (path : List L) (new : Content L A) : Content L A := fun q =>
  if path <+: q then new (q.drop path.length) else c q

@[simp] theorem part_put_self (c : Content L A) (path : List L) (new : Content L A) :
    part (put c path new) path = new := by
  funext below
  simp [part, put]

theorem part_put_apart (c new : Content L A) {path q : List L} (h : Apart path q) :
    part (put c path new) q = part c q := by
  funext below
  have hnot := h.not_prefix_append below
  simp [part, put, hnot]

end FieldPaths
