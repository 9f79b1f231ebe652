import Mathlib.Algebra.Ring.Nat
import Mathlib.Data.Nat.Log
import Mathlib.Data.List.GetD

/-!
# Layouts (runtime/layout.rs)

The layout of Roto types follows the C representation of Rust types. A layout has the
conditions of its documentation as fields, so an assertion of `Layout::new` never fails.
Sizes are exact here: a type whose size no `usize` can hold has no value in any memory.
-/

namespace Roto

@[ext]
structure Layout where
  size : ℕ
  align : ℕ
  align_pow : ∃ k, align = 2 ^ k
  align_dvd : align ∣ size

/-- `usize::next_multiple_of`. -/
def nextMultipleOf (n a : ℕ) : ℕ := if n % a = 0 then n else n + (a - n % a)

theorem dvd_nextMultipleOf (n : ℕ) {a : ℕ} (ha : 0 < a) : a ∣ nextMultipleOf n a := by
  unfold nextMultipleOf
  split_ifs with h
  · exact Nat.dvd_of_mod_eq_zero h
  · have hlt := Nat.mod_lt n ha
    have hsplit := Nat.div_add_mod n a
    refine ⟨n / a + 1, ?_⟩
    rw [Nat.mul_succ]
    omega

theorem le_nextMultipleOf (n a : ℕ) : n ≤ nextMultipleOf n a := by
  unfold nextMultipleOf
  split_ifs <;> omega

theorem pow_pos_of {a : ℕ} (ha : ∃ k, a = 2 ^ k) : 0 < a := by
  obtain ⟨k, rfl⟩ := ha
  exact Nat.two_pow_pos k

theorem max_pow {a b : ℕ} (ha : ∃ k, a = 2 ^ k) (hb : ∃ k, b = 2 ^ k) :
    ∃ k, max a b = 2 ^ k := by
  rcases le_total a b with h | h
  · rw [max_eq_right h]
    exact hb
  · rw [max_eq_left h]
    exact ha

namespace Layout

/-- The layout of `()`. -/
def unit : Layout := ⟨0, 1, ⟨0, rfl⟩, ⟨0, rfl⟩⟩

def one : Layout := ⟨1, 1, ⟨0, rfl⟩, ⟨1, rfl⟩⟩
def two : Layout := ⟨2, 2, ⟨1, rfl⟩, ⟨1, rfl⟩⟩
def four : Layout := ⟨4, 4, ⟨2, rfl⟩, ⟨1, rfl⟩⟩
def eight : Layout := ⟨8, 8, ⟨3, rfl⟩, ⟨1, rfl⟩⟩

def isZeroSized (l : Layout) : Bool := l.size = 0

def union (l other : Layout) : Layout where
  size := nextMultipleOf (max l.size other.size) (max l.align other.align)
  align := max l.align other.align
  align_pow := max_pow l.align_pow other.align_pow
  align_dvd := dvd_nextMultipleOf _ (pow_pos_of (max_pow l.align_pow other.align_pow))

variable {l other : Layout}

theorem align_pos (l : Layout) : 0 < l.align := pow_pos_of l.align_pow

theorem le_union_left : l.size ≤ (l.union other).size ∧ l.align ≤ (l.union other).align :=
  ⟨(le_max_left _ _).trans (le_nextMultipleOf _ _), le_max_left _ _⟩

theorem le_union_right : other.size ≤ (l.union other).size ∧ other.align ≤ (l.union other).align :=
  ⟨(le_max_right _ _).trans (le_nextMultipleOf _ _), le_max_right _ _⟩

end Layout

structure LayoutBuilder where
  size : ℕ
  align : ℕ
  align_pow : ∃ k, align = 2 ^ k

namespace LayoutBuilder

def new : LayoutBuilder := ⟨0, 1, ⟨0, rfl⟩⟩

/-- `add` returns the offset at which the layout was added, and changes the builder. -/
def add (b : LayoutBuilder) (l : Layout) : ℕ × LayoutBuilder :=
  let offset := nextMultipleOf b.size l.align
  (offset, ⟨offset + l.size, max b.align l.align, max_pow b.align_pow l.align_pow⟩)

def finish (b : LayoutBuilder) : Layout :=
  ⟨nextMultipleOf b.size b.align, b.align, b.align_pow,
    dvd_nextMultipleOf _ (pow_pos_of b.align_pow)⟩

/-- The builder of a variant of an enum, with the tag added. -/
def tagged : LayoutBuilder := (new.add Layout.one).2

/-! ### Adding layouts one after the other -/

def addAll (b : LayoutBuilder) (ls : List Layout) : LayoutBuilder :=
  ls.foldl (fun b l => (b.add l).2) b

/-- The offsets that the layouts get. -/
def placed (b : LayoutBuilder) : List Layout → List ℕ
  | [] => []
  | l :: ls => (b.add l).1 :: placed (b.add l).2 ls

variable {b : LayoutBuilder} {l : Layout} {ls : List Layout}

@[simp] theorem addAll_nil : b.addAll [] = b := rfl

@[simp] theorem addAll_cons : b.addAll (l :: ls) = (b.add l).2.addAll ls := rfl

@[simp] theorem length_placed : (b.placed ls).length = ls.length := by
  induction ls generalizing b with
  | nil => rfl
  | cons l ls ih => simp [placed, ih]

theorem le_add : b.size ≤ (b.add l).1 := le_nextMultipleOf _ _

theorem addAll_mono : b.size ≤ (b.addAll ls).size ∧ b.align ≤ (b.addAll ls).align := by
  induction ls generalizing b with
  | nil => exact ⟨le_rfl, le_rfl⟩
  | cons l ls ih =>
    have hle : b.size ≤ (b.add l).1 := le_add
    have hsize : b.size ≤ (b.add l).2.size := hle.trans (Nat.le_add_right _ _)
    have halign : b.align ≤ (b.add l).2.align := le_max_left _ _
    have ih := ih (b := (b.add l).2)
    exact ⟨hsize.trans ih.1, halign.trans ih.2⟩

/-- A layout is placed at a multiple of its alignment, after what was there before and
inside what is there at the end. -/
theorem placed_inside {i off : ℕ} (hl : ls[i]? = some l) (hoff : (b.placed ls)[i]? = some off) :
    l.align ∣ off ∧ b.size ≤ off ∧ off + l.size ≤ (b.addAll ls).size ∧
      l.align ≤ (b.addAll ls).align := by
  induction ls generalizing b i with
  | nil => cases hl
  | cons x ls ih =>
    cases i with
    | zero =>
      obtain rfl := Option.some.inj hl
      obtain rfl := Option.some.inj hoff
      have hmono := @addAll_mono (b.add x).2 ls
      have halign : x.align ≤ (b.add x).2.align := le_max_right _ _
      exact ⟨dvd_nextMultipleOf _ x.align_pos, le_add, hmono.1, halign.trans hmono.2⟩
    | succ i =>
      have h := ih (b := (b.add x).2) hl hoff
      have hle : b.size ≤ (b.add x).1 := le_add
      exact ⟨h.1, (hle.trans (Nat.le_add_right _ _)).trans h.2.1, h.2.2⟩

/-- Each layout ends before the next one begins. -/
theorem placed_disjoint {i j offi offj : ℕ} (hij : i < j) (hl : ls[i]? = some l)
    (hi : (b.placed ls)[i]? = some offi) (hj : (b.placed ls)[j]? = some offj) :
    offi + l.size ≤ offj := by
  induction ls generalizing b i j with
  | nil => cases hl
  | cons x ls ih =>
    obtain ⟨j, rfl⟩ := Nat.exists_eq_succ_of_ne_zero (by omega : j ≠ 0)
    cases i with
    | zero =>
      obtain rfl := Option.some.inj hl
      obtain rfl := Option.some.inj hi
      have hlt : j < ls.length := by
        have := (List.getElem?_eq_some_iff.mp hj).1
        simp only [length_placed, List.length_cons] at this
        omega
      exact (placed_inside (b := (b.add x).2) (List.getElem?_eq_getElem hlt) hj).2.1
    | succ i => exact ih (b := (b.add x).2) (by omega) hl hi hj

theorem finish_mono : b.size ≤ b.finish.size ∧ b.align ≤ b.finish.align :=
  ⟨le_nextMultipleOf _ _, le_rfl⟩

end LayoutBuilder

end Roto
