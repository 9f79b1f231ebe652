import Mathlib.Data.Nat.Digits.Lemmas
import Mathlib.Tactic.IntervalCases
import Mathlib.Tactic.Linarith

/-!
# Integers from text

Parsing of a signed machine integer with the radix given, as the standard library has it: a
sign and digits, with a check for overflow at every digit.
-/

namespace Roto.Lib

namespace Digits
variable {radix : ℕ}

/-- `char::to_digit`. -/
def toDigit (radix : ℕ) (c : Char) : Option ℕ :=
  let d :=
    if '0' ≤ c ∧ c ≤ '9' then c.toNat - '0'.toNat
    else if 'a' ≤ c ∧ c ≤ 'z' then c.toNat - 'a'.toNat + 10
    else if 'A' ≤ c ∧ c ≤ 'Z' then c.toNat - 'A'.toNat + 10
    else radix
  if d < radix then some d else none

def IsDigit (radix : ℕ) (c : Char) : Prop := (toDigit radix c).isSome = true

instance (radix : ℕ) (c : Char) : Decidable (IsDigit radix c) :=
  inferInstanceAs (Decidable ((toDigit radix c).isSome = true))

section
variable {c : Char}

theorem isDigit_of_digit (h : '0' ≤ c ∧ c ≤ '9') (hradix : 10 ≤ radix) : IsDigit radix c := by
  have hle : c.toNat ≤ 57 := h.2
  have hlt : c.toNat - '0'.toNat < radix := by
    have hzero : '0'.toNat = 48 := rfl
    omega
  unfold IsDigit toDigit
  rw [if_pos h, if_pos hlt]
  rfl

theorem isDigit_of_lower (h : 'a' ≤ c ∧ c ≤ 'f') : IsDigit 16 c := by
  have hge : 97 ≤ c.toNat := h.1
  have hle : c.toNat ≤ 102 := h.2
  have hdigit : ¬ ('0' ≤ c ∧ c ≤ '9') := by
    rintro ⟨-, hc⟩
    have hc : c.toNat ≤ 57 := hc
    omega
  have hlower : 'a' ≤ c ∧ c ≤ 'z' := ⟨h.1, show c.toNat ≤ 122 by omega⟩
  have hlt : c.toNat - 'a'.toNat + 10 < 16 := by
    have ha : 'a'.toNat = 97 := rfl
    omega
  unfold IsDigit toDigit
  rw [if_neg hdigit, if_pos hlower, if_pos hlt]
  rfl

theorem isDigit_of_upper (h : 'A' ≤ c ∧ c ≤ 'F') : IsDigit 16 c := by
  have hge : 65 ≤ c.toNat := h.1
  have hle : c.toNat ≤ 70 := h.2
  have hdigit : ¬ ('0' ≤ c ∧ c ≤ '9') := by
    rintro ⟨-, hc⟩
    have hc : c.toNat ≤ 57 := hc
    omega
  have hlower : ¬ ('a' ≤ c ∧ c ≤ 'z') := by
    rintro ⟨hc, -⟩
    have hc : 97 ≤ c.toNat := hc
    omega
  have hupper : 'A' ≤ c ∧ c ≤ 'Z' := ⟨h.1, show c.toNat ≤ 90 by omega⟩
  have hlt : c.toNat - 'A'.toNat + 10 < 16 := by
    have ha : 'A'.toNat = 65 := rfl
    omega
  unfold IsDigit toDigit
  rw [if_neg hdigit, if_neg hlower, if_pos hupper, if_pos hlt]
  rfl

end

/-- The digits of a text, the last one first. -/
def ofText (radix : ℕ) (s : List Char) : List ℕ := s.reverse.map fun c => (toDigit radix c).getD 0

/-- The number that digits write. -/
def value (radix : ℕ) (s : List Char) : ℕ := Nat.ofDigits radix (ofText radix s)

theorem value_cons (c : Char) (s : List Char) :
    value radix (c :: s) = (toDigit radix c).getD 0 * radix ^ s.length + value radix s := by
  unfold value ofText
  rw [List.reverse_cons, List.map_append, Nat.ofDigits_append, List.map_cons, List.map_nil,
    Nat.ofDigits_singleton, List.length_map, List.length_reverse]
  ring

/-- The text of a number. -/
def text (n : ℕ) : List Char :=
  if n = 0 then ['0'] else ((Nat.digits 10 n).map Nat.digitChar).reverse

theorem toDigit_digitChar {d : ℕ} (hd : d < 10) : toDigit 10 (Nat.digitChar d) = some d := by
  interval_cases d <;> decide

theorem text_ne_nil (n : ℕ) : text n ≠ [] := by
  unfold text
  split_ifs with h
  · exact List.cons_ne_nil _ _
  · intro hnil
    have hdigits : Nat.digits 10 n = [] := by simpa using hnil
    exact h (Nat.digits_eq_nil_iff_eq_zero.mp hdigits)

theorem text_digits (n : ℕ) : ∀ c ∈ text n, ∃ d < 10, c = Nat.digitChar d := by
  unfold text
  split_ifs with h
  · intro c hc
    obtain rfl := List.mem_singleton.mp hc
    exact ⟨0, by norm_num, rfl⟩
  · intro c hc
    obtain ⟨d, hd, rfl⟩ := List.mem_map.mp (List.mem_reverse.mp hc)
    exact ⟨d, Nat.digits_lt_base (by norm_num) hd, rfl⟩

theorem value_text (n : ℕ) : value 10 (text n) = n := by
  unfold text
  split_ifs with h
  · rw [h]
    rfl
  · have hmap : ofText 10 ((Nat.digits 10 n).map Nat.digitChar).reverse = Nat.digits 10 n := by
      rw [ofText, List.reverse_reverse, List.map_map]
      conv_rhs => rw [← List.map_id (Nat.digits 10 n)]
      refine List.map_congr_left fun d hd => ?_
      have hlt : d < 10 := Nat.digits_lt_base (by norm_num) hd
      simp only [Function.comp_apply, toDigit_digitChar hlt, Option.getD_some, id]
    rw [value, hmap, Nat.ofDigits_digits]

end Digits

/-! ### Parsing -/

inductive IntErrorKind where
  | empty | invalidDigit | posOverflow | negOverflow
  deriving DecidableEq, Repr

def IntErrorKind.display : IntErrorKind → String
  | empty => "cannot parse integer from empty string"
  | invalidDigit => "invalid digit found in string"
  | posOverflow => "number too large to fit in target type"
  | negOverflow => "number too small to fit in target type"

/-- A range of integers, as a machine type has it. -/
structure IntRange where
  min : ℤ
  max : ℤ

namespace IntRange
open Digits

instance : Membership ℤ IntRange := ⟨fun r n => r.min ≤ n ∧ n ≤ r.max⟩

instance (r : IntRange) (n : ℤ) : Decidable (n ∈ r) :=
  inferInstanceAs (Decidable (r.min ≤ n ∧ n ≤ r.max))

theorem mem_def {r : IntRange} {n : ℤ} : n ∈ r ↔ r.min ≤ n ∧ n ≤ r.max := Iff.rfl

/-- The loop over the digits. -/
def parseDigits (r : IntRange) (radix : ℕ) (negative : Bool) : ℤ → List Char → Except IntErrorKind ℤ
  | n, [] => .ok n
  | n, c :: s =>
    match toDigit radix c with
    | none => .error .invalidDigit
    | some d =>
      let next := if negative then n * radix - d else n * radix + d
      if next ∈ r then r.parseDigits radix negative next s
      else .error (if negative then .negOverflow else .posOverflow)

/-- `from_str_radix` of a signed type. -/
def fromStrRadix (r : IntRange) (radix : ℕ) (s : List Char) : Except IntErrorKind ℤ :=
  match s with
  | [] => .error .empty
  | ['+'] => .error .invalidDigit
  | ['-'] => .error .invalidDigit
  | '+' :: s => r.parseDigits radix false 0 s
  | '-' :: s => r.parseDigits radix true 0 s
  | s => r.parseDigits radix false 0 s

variable {r : IntRange} {radix : ℕ}

/-- Digits are parsed to the number that they write, if it is in the range. -/
theorem parseDigits_eq (hr : r.min ≤ 0) (hradix : 0 < radix) {s : List Char}
    (hs : ∀ c ∈ s, IsDigit radix c) {n : ℤ} (h0 : 0 ≤ n) (hn : n ∈ r) :
    r.parseDigits radix false n s =
      if n * radix ^ s.length + value radix s ≤ r.max then
        .ok (n * radix ^ s.length + value radix s)
      else .error .posOverflow := by
  induction s generalizing n with
  | nil =>
    have hval : value radix [] = 0 := rfl
    rw [hval, List.length_nil, pow_zero, mul_one, Nat.cast_zero, add_zero, if_pos hn.2]
    rfl
  | cons c s ih =>
    obtain ⟨hc, hs⟩ := List.forall_mem_cons.mp hs
    obtain ⟨d, hd⟩ := Option.isSome_iff_exists.mp hc
    have hpow : (1 : ℤ) ≤ (radix : ℤ) ^ s.length := by
      exact_mod_cast Nat.one_le_pow _ _ hradix
    have hnonneg : 0 ≤ n * radix + d := by positivity
    have htotal : n * (radix : ℤ) ^ (c :: s).length + value radix (c :: s) =
        (n * radix + d) * (radix : ℤ) ^ s.length + value radix s := by
      rw [value_cons, hd, List.length_cons, pow_succ]
      push_cast [Option.getD_some]
      ring
    unfold parseDigits
    simp only [hd, Bool.false_eq_true, if_false]
    rw [htotal]
    by_cases hnext : n * radix + d ∈ r
    · rw [if_pos hnext, ih hs hnonneg hnext]
    · rw [if_neg hnext, if_neg]
      have hgt : r.max < n * radix + d := by
        by_contra hle
        exact hnext ⟨hr.trans hnonneg, not_lt.mp hle⟩
      have hval : (0 : ℤ) ≤ value radix s := Int.natCast_nonneg _
      have hmul : n * radix + d ≤ (n * radix + d) * (radix : ℤ) ^ s.length :=
        le_mul_of_one_le_right hnonneg hpow
      linarith

theorem not_isDigit_sign {c : Char} (h : c = '+' ∨ c = '-') : ¬ IsDigit radix c := by
  unfold IsDigit toDigit
  rcases h with rfl | rfl <;> simp

theorem fromStrRadix_eq (hr : (0 : ℤ) ∈ r) (hradix : 0 < radix) {s : List Char} (hne : s ≠ [])
    (hs : ∀ c ∈ s, IsDigit radix c) :
    r.fromStrRadix radix s =
      if (value radix s : ℤ) ≤ r.max then .ok (value radix s : ℤ) else .error .posOverflow := by
  have hsign : ∀ c ∈ s, c ≠ '+' ∧ c ≠ '-' := fun c hc =>
    ⟨fun h => not_isDigit_sign (.inl h) (hs c hc), fun h => not_isDigit_sign (.inr h) (hs c hc)⟩
  have hdigits : r.fromStrRadix radix s = r.parseDigits radix false 0 s := by
    unfold fromStrRadix
    split
    · exact absurd rfl hne
    · exact absurd rfl (hsign '+' (List.mem_singleton_self _)).1
    · exact absurd rfl (hsign '-' (List.mem_singleton_self _)).2
    · exact absurd rfl (hsign '+' (List.mem_cons_self ..)).1
    · exact absurd rfl (hsign '-' (List.mem_cons_self ..)).2
    · rfl
  rw [hdigits, parseDigits_eq hr.1 hradix hs le_rfl hr, zero_mul, zero_add]

end IntRange

end Roto.Lib
