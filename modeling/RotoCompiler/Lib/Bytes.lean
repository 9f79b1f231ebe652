import Mathlib.Algebra.Ring.Nat
import Mathlib.Data.Nat.Log

/-!
# Byte memory and machine sizes

A buffer is a function from offsets to bytes. Blocks of a fixed length are read from it
and written to it, and blocks that do not overlap do not touch each other.
-/

namespace Roto.Lib

/-- Bytes at offsets; what lies past the end of a buffer has no meaning. -/
abbrev Memory := ℕ → UInt8

/-- A block of `n` bytes. -/
abbrev Bytes (n : ℕ) := Fin n → UInt8

namespace Memory
variable {n : ℕ}

def read (m : Memory) (n off : ℕ) : Bytes n := fun k => m (off + k)

def write (m : Memory) (off : ℕ) (bs : Bytes n) : Memory := fun a =>
  if h : off ≤ a ∧ a - off < n then bs ⟨a - off, h.2⟩ else m a

/-- `copy_nonoverlapping` of `len` bytes from the start of `src`. -/
def copy (m : Memory) (off : ℕ) (src : Memory) (len : ℕ) : Memory := fun a =>
  if off ≤ a ∧ a - off < len then src (a - off) else m a

/-- `swap_nonoverlapping` of the blocks of length `n` at `i` and `j`. -/
def swap (m : Memory) (n i j : ℕ) : Memory :=
  (m.write i (m.read n j)).write j (m.read n i)

@[simp] theorem read_write_same (m : Memory) (off : ℕ) (bs : Bytes n) :
    (m.write off bs).read n off = bs := by
  funext k
  simp [read, write, k.isLt]

theorem read_write_other {m : Memory} {off off' : ℕ} {bs : Bytes n}
    (h : off + n ≤ off' ∨ off' + n ≤ off) : (m.write off' bs).read n off = m.read n off := by
  funext k
  have hk := k.isLt
  simp only [read, write]
  rw [dif_neg (by omega)]

theorem read_copy_inside {m src : Memory} {off off' len : ℕ} (h : off' + n ≤ len) :
    (m.copy off src len).read n (off + off') = src.read n off' := by
  funext k
  have hk := k.isLt
  simp only [read, copy]
  rw [if_pos (by omega)]
  congr 1
  omega

theorem read_copy_before {m src : Memory} {off off' len : ℕ} (h : off' + n ≤ off) :
    (m.copy off src len).read n off' = m.read n off' := by
  funext k
  have hk := k.isLt
  simp only [read, copy]
  rw [if_neg (by omega)]

/-- A read only looks at the bytes of its block. -/
theorem read_congr {m m' : Memory} {off : ℕ} (h : ∀ a, off ≤ a → a < off + n → m a = m' a) :
    m.read n off = m'.read n off := by
  funext k
  exact h _ (Nat.le_add_right ..) (Nat.add_lt_add_left k.isLt _)

end Memory

/-! ### Machine sizes -/

/-- `usize` has 64 bits. -/
def usizeBound : ℕ := 2 ^ 64

/-- `isize::MAX` is one less. -/
def isizeBound : ℕ := 2 ^ 63

/-- `usize::checked_next_power_of_two`, without the check. -/
def nextPowerOfTwo (n : ℕ) : ℕ := 2 ^ Nat.clog 2 n

theorem le_nextPowerOfTwo (n : ℕ) : n ≤ nextPowerOfTwo n :=
  Nat.le_pow_clog Nat.one_lt_two n

/-- It is the least of the powers of two that are not below `n`. -/
theorem nextPowerOfTwo_le {n k : ℕ} (h : n ≤ 2 ^ k) : nextPowerOfTwo n ≤ 2 ^ k :=
  Nat.pow_le_pow_right (by omega) (Nat.clog_le_of_le_pow h)

end Roto.Lib
