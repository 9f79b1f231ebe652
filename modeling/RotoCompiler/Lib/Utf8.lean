import Mathlib.Data.String.Basic
import Mathlib.Data.List.Basic

/-!
# Text as characters and as bytes

A text is a list of characters; its bytes are their UTF-8 encodings. Byte offsets fall on
a boundary of characters or inside of one.
-/

namespace Roto.Lib

abbrev Text := List Char

namespace Text
open String (utf8Len)

/-- The bytes of a text. -/
def bytes (s : Text) : List UInt8 := s.flatMap String.utf8EncodeChar

def IsAscii (c : Char) : Prop := c.utf8Size = 1

instance (c : Char) : Decidable (IsAscii c) := inferInstanceAs (Decidable (c.utf8Size = 1))

/-- A byte offset between two characters, or at one of the ends. -/
def IsBoundary (s : Text) (n : ℕ) : Prop := ∃ a b, a ++ b = s ∧ utf8Len a = n

/-- `str::split_at`: there is nothing when `n` is not on a boundary. -/
def splitAt : Text → ℕ → Option (Text × Text)
  | s, 0 => some ([], s)
  | [], _ + 1 => none
  | c :: s, n + 1 =>
    if c.utf8Size ≤ n + 1 then
      (splitAt s (n + 1 - c.utf8Size)).map fun (a, b) => (c :: a, b)
    else none

variable {s a b : Text} {n : ℕ} {c : Char}

theorem splitAt_append (a b : Text) : splitAt (a ++ b) (utf8Len a) = some (a, b) := by
  induction a with
  | nil => cases b <;> rfl
  | cons c a ih =>
    have hpos : 0 < c.utf8Size := Char.utf8Size_pos c
    obtain ⟨m, hm⟩ : ∃ m, utf8Len (c :: a) = m + 1 := ⟨utf8Len (c :: a) - 1, by
      rw [String.utf8Len_cons]
      omega⟩
    have hlen : m + 1 = utf8Len a + c.utf8Size := by rw [← hm, String.utf8Len_cons]
    have hsub : m + 1 - c.utf8Size = utf8Len a := by omega
    rw [hm, List.cons_append, splitAt, if_pos (by omega), hsub, ih]
    rfl

theorem isBoundary_suffix (h : b <:+ s) : IsBoundary s (utf8Len s - utf8Len b) := by
  obtain ⟨a, rfl⟩ := h
  exact ⟨a, b, rfl, by rw [String.utf8Len_append]; omega⟩

theorem utf8Len_suffix (h : b <:+ s) : utf8Len b ≤ utf8Len s := by
  obtain ⟨a, rfl⟩ := h
  rw [String.utf8Len_append]
  omega

/-! ### The first bytes -/

theorem bytes_cons_of_ascii (h : IsAscii c) (s : Text) : bytes (c :: s) = c.val.toUInt8 :: bytes s := by
  rw [bytes, List.flatMap_cons, String.utf8EncodeChar_eq_singleton h]
  rfl

theorem le_or (x y : UInt8) : y.toNat ≤ (x ||| y).toNat := by
  rw [UInt8.toNat_or]
  exact Nat.right_le_or

/-- A byte below 128 is a character of its own. -/
theorem ascii_of_bytes {x : UInt8} {t : List UInt8} (h : bytes (c :: s) = x :: t)
    (hx : x.toNat < 128) : IsAscii c ∧ t = bytes s := by
  rw [bytes, List.flatMap_cons] at h
  rcases Char.utf8Size_eq c with h1 | h2 | h3 | h4
  · rw [String.utf8EncodeChar_eq_singleton h1] at h
    exact ⟨h1, (List.cons.inj h).2.symm⟩
  · rw [String.utf8EncodeChar_eq_cons_cons h2] at h
    have hle := le_or ((c.val >>> 6).toUInt8 &&& 0x1f) 0xc0
    rw [(List.cons.inj h).1] at hle
    have h128 : (0xc0 : UInt8).toNat = 192 := rfl
    omega
  · rw [String.utf8EncodeChar_eq_cons_cons_cons h3] at h
    have hle := le_or ((c.val >>> 12).toUInt8 &&& 0x0f) 0xe0
    rw [(List.cons.inj h).1] at hle
    have h128 : (0xe0 : UInt8).toNat = 224 := rfl
    omega
  · rw [String.utf8EncodeChar_eq_cons_cons_cons_cons h4] at h
    have hle := le_or ((c.val >>> 18).toUInt8 &&& 0x07) 0xf0
    rw [(List.cons.inj h).1] at hle
    have h128 : (0xf0 : UInt8).toNat = 240 := rfl
    omega

/-- One byte below 128 at the start of a text is its first character. -/
theorem cons_of_byte {x : UInt8} {t : List UInt8} (h : bytes s = x :: t) (hx : x.toNat < 128) :
    ∃ c s', s = c :: s' ∧ IsAscii c ∧ bytes s' = t := by
  cases s with
  | nil => cases h
  | cons c s =>
    obtain ⟨hc, ht⟩ := ascii_of_bytes h hx
    exact ⟨c, s, rfl, hc, ht.symm⟩

theorem splitAt_ascii (h : IsAscii c) (s : Text) : splitAt (c :: s) 1 = some ([c], s) := by
  have happ := splitAt_append [c] s
  have hlen : utf8Len [c] = 1 := by rw [String.utf8Len_cons, String.utf8Len_nil, h]
  rwa [hlen] at happ

end Text

end Roto.Lib
