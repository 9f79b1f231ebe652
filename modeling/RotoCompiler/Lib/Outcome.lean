import Mathlib.Data.Set.Lattice

/-!
# Nondeterministic computations that can exit early

A computation is the set of its outcomes: each is a value, or an exit that skips what
follows.
-/

namespace Roto.Lib

inductive Outcome (ε α : Type) where
  | value (a : α)
  | exit (x : ε)
  deriving DecidableEq, Repr

/-- The outcomes that a computation can have. -/
abbrev Outcomes (ε α : Type) := Set (Outcome ε α)

namespace Outcomes
variable {ε α : Type}

def pure (a : α) : Outcomes ε α := {.value a}

def exit (x : ε) : Outcomes ε α := {.exit x}

/-- No outcome: there is no such run. -/
def stuck : Outcomes ε α := ∅

def bind (r : Outcomes ε α) (k : α → Outcomes ε α) : Outcomes ε α :=
  {o | (∃ a, .value a ∈ r ∧ o ∈ k a) ∨ ∃ x, .exit x ∈ r ∧ o = .exit x}

def either (r s : Outcomes ε α) : Outcomes ε α := r ∪ s

/-- One computation after the other; the value of the first is dropped. -/
def seq (r s : Outcomes ε α) : Outcomes ε α := bind r fun _ => s

/-- Each of `rs` in turn, then `k`. -/
def all (rs : List (Outcomes ε α)) (k : Outcomes ε α) : Outcomes ε α := rs.foldr seq k

/-- One of `rs`. -/
def oneOf (rs : List (Outcomes ε α)) : Outcomes ε α := rs.foldr either stuck

/-- The outcomes of running `r` again and again, when stopping gives `a`. -/
inductive Star (r : Outcomes ε α) (a : α) : Outcome ε α → Prop where
  | stop : Star r a (.value a)
  | exit {x : ε} (h : .exit x ∈ r) : Star r a (.exit x)
  | again {b : α} {o : Outcome ε α} (h : .value b ∈ r) (hs : Star r a o) : Star r a o

/-- Any number of times `r`, then `a`. -/
def star (r : Outcomes ε α) (a : α) : Outcomes ε α := {o | Star r a o}

/-- Some run gets to the end. -/
def Completes (r : Outcomes ε α) : Prop := ∃ a, .value a ∈ r

/-- Some run exits in a way that is in `E`. -/
def ExitsIn (E : ε → Prop) (r : Outcomes ε α) : Prop := ∃ x, E x ∧ .exit x ∈ r

/-! ### Members -/

variable {r s : Outcomes ε α} {rs : List (Outcomes ε α)} {a b : α} {x : ε} {o : Outcome ε α}

@[simp] theorem mem_pure : o ∈ (pure a : Outcomes ε α) ↔ o = .value a := Iff.rfl

@[simp] theorem mem_exit : o ∈ (exit x : Outcomes ε α) ↔ o = .exit x := Iff.rfl

@[simp] theorem mem_stuck : o ∈ (stuck : Outcomes ε α) ↔ False := Iff.rfl

@[simp] theorem mem_either : o ∈ either r s ↔ o ∈ r ∨ o ∈ s := Iff.rfl

theorem value_mem_bind {k : α → Outcomes ε α} :
    .value b ∈ bind r k ↔ ∃ a, .value a ∈ r ∧ .value b ∈ k a := by
  simp [bind]

theorem exit_mem_bind {k : α → Outcomes ε α} :
    .exit x ∈ bind r k ↔ (∃ a, .value a ∈ r ∧ .exit x ∈ k a) ∨ .exit x ∈ r := by
  simp [bind]

/-- A computation that is repeated can always stop, and exits as one round exits. -/
theorem mem_star : o ∈ star r a ↔ o = .value a ∨ ∃ x, o = .exit x ∧ .exit x ∈ r := by
  constructor
  · intro h
    induction h with
    | stop => exact Or.inl rfl
    | exit h => exact Or.inr ⟨_, rfl, h⟩
    | again _ _ ih => exact ih
  · rintro (rfl | ⟨x, rfl, hx⟩)
    · exact Star.stop
    · exact Star.exit hx

theorem mem_oneOf : o ∈ oneOf rs ↔ ∃ r ∈ rs, o ∈ r := by
  induction rs with
  | nil => simp [oneOf]
  | cons r rs ih =>
    show o ∈ either r (oneOf rs) ↔ _
    rw [mem_either, ih]
    simp

@[simp] theorem completes_stuck : Completes (stuck : Outcomes ε α) ↔ False := by
  simp [Completes]

variable {E : ε → Prop}

@[simp] theorem exitsIn_stuck : ExitsIn E (stuck : Outcomes ε α) ↔ False := by
  simp [ExitsIn]

/-- All values have one property, and all exits another. -/
structure Satisfies (r : Outcomes ε α) (P : α → Prop) (E : ε → Prop) : Prop where
  values : ∀ a, .value a ∈ r → P a
  exits : ∀ x, .exit x ∈ r → E x

namespace Satisfies
variable {P Q : α → Prop}

theorem pure (h : P a) : Satisfies (pure a) P E where
  values b hb := by
    obtain rfl : b = a := by simpa using hb
    exact h
  exits x hx := by simp at hx

theorem exit (h : E x) : Satisfies (exit x) P E where
  values a ha := by simp at ha
  exits y hy := by
    obtain rfl : y = x := by simpa using hy
    exact h

theorem imp (hr : Satisfies r Q E) (h : ∀ a, Q a → P a) : Satisfies r P E where
  values a ha := h a (hr.values a ha)
  exits := hr.exits

theorem stuck : Satisfies (stuck : Outcomes ε α) P E where
  values _ h := h.elim
  exits _ h := h.elim

theorem bind {k : α → Outcomes ε α} (hr : Satisfies r Q E) (hk : ∀ a, Q a → Satisfies (k a) P E) :
    Satisfies (bind r k) P E where
  values b hb := by
    obtain ⟨a, ha, hb⟩ := value_mem_bind.mp hb
    exact (hk a (hr.values a ha)).values b hb
  exits x hx := by
    rcases exit_mem_bind.mp hx with ⟨a, ha, hx⟩ | hx
    · exact (hk a (hr.values a ha)).exits x hx
    · exact hr.exits x hx

theorem seq (hr : Satisfies r Q E) (hs : Satisfies s P E) : Satisfies (seq r s) P E :=
  hr.bind fun _ _ => hs

theorem either (hr : Satisfies r P E) (hs : Satisfies s P E) : Satisfies (either r s) P E where
  values a h := h.elim (hr.values a) (hs.values a)
  exits x h := h.elim (hr.exits x) (hs.exits x)

theorem oneOf (h : ∀ r ∈ rs, Satisfies r P E) : Satisfies (oneOf rs) P E where
  values a ha := by
    obtain ⟨r, hr, ha⟩ := mem_oneOf.mp ha
    exact (h r hr).values a ha
  exits x hx := by
    obtain ⟨r, hr, hx⟩ := mem_oneOf.mp hx
    exact (h r hr).exits x hx

theorem star (hr : Satisfies r Q E) (h : P a) : Satisfies (star r a) P E where
  values b hb := by
    rcases mem_star.mp hb with heq | ⟨x, heq, -⟩
    · cases heq
      exact h
    · cases heq
  exits x hx := by
    rcases mem_star.mp hx with heq | ⟨y, heq, hy⟩
    · cases heq
    · cases heq
      exact hr.exits x hy

end Satisfies

end Outcomes

end Roto.Lib
