import RotoCompiler.Lib.Utf8

/-!
# Texts in pieces

A text that is put together from pieces, the byte offsets at which the pieces end, and the
text between two of these offsets.
-/

namespace Roto.Lib.Text
open String (utf8Len)

/-- The text between two byte offsets; there is nothing if one of them is not on a boundary
or if they are the wrong way around. -/
def slice (s : Text) (start stop : ℕ) : Option Text := do
  if stop < start then none
  let (_, t) ← splitAt s start
  let (t, _) ← splitAt t (stop - start)
  return t

/-- The offsets at which pieces end that begin at `off`. -/
def ends : ℕ → List Text → List ℕ
  | _, [] => []
  | off, t :: ts => (off + utf8Len t) :: ends (off + utf8Len t) ts

variable {ts : List Text} {i j off n : ℕ}

theorem slice_append (a b c : Text) :
    slice (a ++ (b ++ c)) (utf8Len a) (utf8Len a + utf8Len b) = some b := by
  have hsub : utf8Len a + utf8Len b - utf8Len a = utf8Len b := by omega
  unfold slice
  rw [if_neg (by omega), splitAt_append, hsub]
  simp only [Option.bind_eq_bind, Option.bind_some, splitAt_append]
  rfl

@[simp] theorem length_ends (off : ℕ) (ts : List Text) : (ends off ts).length = ts.length := by
  induction ts generalizing off with
  | nil => rfl
  | cons t ts ih => rw [ends, List.length_cons, ih, List.length_cons]

/-- The offset before piece number `i` is the length of the pieces before it. -/
theorem getElem?_ends (h : i ≤ ts.length) :
    (off :: ends off ts)[i]? = some (off + utf8Len (ts.take i).flatten) := by
  induction i generalizing off ts with
  | zero => simp
  | succ i ih =>
    cases ts with
    | nil => simp at h
    | cons t ts =>
      have ih := @ih ts (off + utf8Len t) (by simpa using h)
      rw [ends, List.getElem?_cons_succ, ih, List.take_succ_cons, List.flatten_cons,
        String.utf8Len_append, Nat.add_assoc]

/-- Between the offsets of two pieces are the pieces from the one to the other. -/
theorem slice_pieces (hij : i ≤ j) :
    slice ts.flatten (utf8Len (ts.take i).flatten) (utf8Len (ts.take j).flatten) =
      some ((ts.take j).drop i).flatten := by
  have htake : ts.take j = ts.take i ++ (ts.take j).drop i := by
    conv_lhs => rw [← List.take_append_drop i (ts.take j)]
    rw [List.take_take, min_eq_left hij]
  have hall : ts.flatten =
      (ts.take i).flatten ++ (((ts.take j).drop i).flatten ++ (ts.drop j).flatten) := by
    conv_lhs => rw [← List.take_append_drop j ts, htake]
    rw [List.flatten_append, List.flatten_append, List.append_assoc]
  have hlen : utf8Len (ts.take j).flatten =
      utf8Len (ts.take i).flatten + utf8Len ((ts.take j).drop i).flatten := by
    conv_lhs => rw [htake]
    rw [List.flatten_append, String.utf8Len_append]
  rw [hlen, hall]
  exact slice_append _ _ _

end Roto.Lib.Text
