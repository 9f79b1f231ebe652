import RotoCompiler.Value.StringView

/-!
# Slices of strings

The offsets that the views compute are the ends of pieces: of the characters, and of the
lines with their terminators. So a slice is some of the pieces.
-/

namespace Roto.Value
open Lib
open String (utf8Len)

variable {s : Text} {i j n : ℕ}

/-! ### Characters -/

namespace StringChars

theorem list_eq (s : Text) : list s = s := by
  have hfold : ∀ acc : List Char, s.foldl (fun l c => l ++ [c]) acc = acc ++ s := by
    induction s with
    | nil => exact fun acc => (List.append_nil acc).symm
    | cons c s ih =>
      intro acc
      rw [List.foldl_cons, ih, List.append_assoc, List.singleton_append]
  exact hfold []

/-- The characters as pieces. -/
def pieces (s : Text) : List Text := s.map fun c => [c]

theorem pieces_cons (c : Char) (s : Text) : pieces (c :: s) = [c] :: pieces s := rfl

theorem flatten_pieces (s : Text) : (pieces s).flatten = s := by
  induction s with
  | nil => rfl
  | cons c s ih => rw [pieces_cons, List.flatten_cons, ih, List.singleton_append]

theorem flatten_take_pieces (s : Text) (n : ℕ) : ((pieces s).take n).flatten = s.take n := by
  rw [pieces, ← List.map_take, ← pieces, flatten_pieces]

theorem charIndices_eq (off : ℕ) (s : Text) :
    charIndices off s ++ [off + utf8Len s] = off :: Text.ends off (pieces s) := by
  induction s generalizing off with
  | nil => rfl
  | cons c s ih =>
    have hlen : off + utf8Len (c :: s) = off + c.utf8Size + utf8Len s := by
      rw [String.utf8Len_cons]
      omega
    have hone : utf8Len [c] = c.utf8Size := by simp
    rw [charIndices, List.cons_append, hlen, ih, pieces_cons, Text.ends, hone]

/-- The offset of a character, or the length of the string after the last one. -/
theorem getElem?_indices (h : n ≤ s.length) :
    (charIndices 0 s ++ [utf8Len s])[n]? = some (utf8Len (s.take n)) := by
  have heq := charIndices_eq 0 s
  rw [Nat.zero_add] at heq
  rw [heq, Text.getElem?_ends (by simpa [pieces] using h), flatten_take_pieces, Nat.zero_add]

theorem length_indices (s : Text) : (charIndices 0 s ++ [utf8Len s]).length = s.length + 1 := by
  have heq := charIndices_eq 0 s
  rw [Nat.zero_add] at heq
  rw [heq]
  simp [pieces]

theorem slice_boundaries (hij : i ≤ j) :
    Text.slice s (utf8Len (s.take i)) (utf8Len (s.take j)) = some ((s.take j).drop i) := by
  have h := @Text.slice_pieces (pieces s) i j hij
  rw [flatten_take_pieces, flatten_take_pieces, flatten_pieces] at h
  rw [h, pieces, ← List.map_take, ← List.map_drop, ← pieces, flatten_pieces]

theorem nth_of_le {iter : List ℕ} {x : ℕ} (h : iter[n]? = some x) :
    nth iter n = some (x, iter.drop (n + 1)) := by
  rw [nth, h]
  rfl

theorem nth_of_ge {iter : List ℕ} (h : iter.length ≤ n) : nth iter n = none := by
  rw [nth, List.getElem?_eq_none h]
  rfl

theorem slice_eq (s : Text) (i j : ℕ) :
    slice s i j = some (if i ≤ j ∧ j ≤ s.length then some ((s.take j).drop i) else none) := by
  have hlength := length_indices s
  by_cases hij : i ≤ j
  · unfold slice
    rw [if_neg (by omega)]
    by_cases hi : i ≤ s.length
    · simp only [nth_of_le (getElem?_indices hi)]
      by_cases hzero : j - i = 0
      · obtain rfl : i = j := by omega
        rw [if_pos hzero, if_pos ⟨le_rfl, hi⟩, List.drop_take]
        simp
      · rw [if_neg hzero]
        have hindex : i + 1 + (j - i - 1) = j := by omega
        by_cases hj : j ≤ s.length
        · have hnext : ((charIndices 0 s ++ [utf8Len s]).drop (i + 1))[j - i - 1]? =
              some (utf8Len (s.take j)) := by
            rw [List.getElem?_drop, hindex]
            exact getElem?_indices hj
          simp only [nth_of_le hnext]
          rw [slice_boundaries hij, if_pos ⟨hij, hj⟩]
          rfl
        · have hend : ((charIndices 0 s ++ [utf8Len s]).drop (i + 1)).length ≤ j - i - 1 := by
            rw [List.length_drop]
            omega
          simp only [nth_of_ge hend]
          rw [if_neg (by omega)]
    · simp only [nth_of_ge (show (charIndices 0 s ++ [utf8Len s]).length ≤ i by omega)]
      rw [if_neg (by omega)]
  · rw [slice, if_pos (by omega), if_neg (by omega)]

/-- A slice never panics. It is there exactly when its bounds are in order and inside of the
string, it has the characters between them, and it agrees with the other views. -/
theorem slice_exact (s : Text) (i j : ℕ) :
    ∃ r, slice s i j = some r ∧ (r.isSome ↔ i ≤ j ∧ j ≤ len s) ∧
      (∀ t, r = some t → len t = j - i ∧ list t = ((list s).take j).drop i ∧
        ∀ k, k < j - i → get t k = get s (i + k)) ∧
      slice s i (i + 1) = some ((get s i).map fun c => [c]) ∧
      get s i = (list s)[i]? ∧ len s = (list s).length := by
  refine ⟨_, slice_eq s i j, ?_, ?_, ?_, ?_, ?_⟩
  · split_ifs with h
    · exact ⟨fun _ => h, fun _ => rfl⟩
    · exact ⟨fun hnone => (nomatch hnone), fun hin => absurd hin h⟩
  · intro t ht
    split_ifs at ht with h
    · obtain rfl := Option.some.inj ht
      have hlen : len s = s.length := rfl
      refine ⟨?_, by rw [list_eq, list_eq], fun k hk => ?_⟩
      · simp only [len, List.length_drop, List.length_take]
        omega
      · simp only [get, List.getElem?_drop]
        exact List.getElem?_take_of_lt (by omega)
  · rw [slice_eq]
    by_cases hi : i < s.length
    · rw [if_pos ⟨Nat.le_succ i, hi⟩, get, List.getElem?_eq_getElem hi, List.drop_take]
      simp [List.take_one, hi]
    · rw [if_neg (by omega), get, List.getElem?_eq_none (by omega)]
      rfl
  · rw [list_eq]
    rfl
  · rw [list_eq]
    rfl

end StringChars

/-! ### Lines -/

namespace StringLines

/-- `get` goes by bytes like the one of `StringBytes`: it has the character after a part of the
string, not a line. -/
theorem get_append (s t : Text) : get (s ++ t) (utf8Len s) = t.head? := by
  rw [get, Text.splitAt_append, Option.bind_some]

/-- What comes after the last newline, or nothing at all for the empty string. -/
def unterminated (s : Text) : List ℕ :=
  if s = [] ∨ s.getLast? = some '\n' then [] else [utf8Len s]

theorem flatten_splitInclusive (line s : Text) : (splitInclusive line s).flatten = line ++ s := by
  induction s generalizing line with
  | nil =>
    rw [splitInclusive]
    split_ifs with h
    · rw [h]
      rfl
    · simp
  | cons c s ih =>
    rw [splitInclusive]
    split_ifs
    · rw [List.flatten_cons, ih, List.append_assoc, List.nil_append, List.singleton_append]
    · rw [ih, List.append_assoc, List.singleton_append]

/-- A newline ends a line. -/
theorem newline_at_end {line s : Text} (h : '\n' ∉ line) :
    ∀ t ∈ splitInclusive line s, '\n' ∉ t.dropLast := by
  induction s generalizing line with
  | nil =>
    intro t ht
    rw [splitInclusive] at ht
    split_ifs at ht
    · cases ht
    · obtain rfl := List.mem_singleton.mp ht
      exact fun hmem => h ((List.dropLast_sublist t).subset hmem)
  | cons c s ih =>
    intro t ht
    rw [splitInclusive] at ht
    split_ifs at ht with hc
    · rcases List.mem_cons.mp ht with rfl | ht
      · rw [List.dropLast_concat]
        exact h
      · exact ih (List.not_mem_nil) t ht
    · refine ih ?_ t ht
      intro hmem
      rcases List.mem_append.mp hmem with hmem | hmem
      · exact h hmem
      · exact hc (List.mem_singleton.mp hmem).symm

/-- All lines but the last one end in a newline. -/
theorem newline_before_last (line s : Text) :
    ∀ t ∈ (splitInclusive line s).dropLast, t.getLast? = some '\n' := by
  induction s generalizing line with
  | nil =>
    intro t ht
    rw [splitInclusive] at ht
    split_ifs at ht
    · cases ht
    · cases ht
  | cons c s ih =>
    intro t ht
    rw [splitInclusive] at ht
    split_ifs at ht with hc
    · cases hs : splitInclusive [] s with
      | nil =>
        rw [hs] at ht
        cases ht
      | cons u us =>
        rw [hs, List.dropLast_cons_cons] at ht
        rcases List.mem_cons.mp ht with rfl | ht
        · rw [List.getLast?_concat, hc]
        · exact ih [] t (hs ▸ ht)
    · exact ih _ t ht

/-- The offsets after the newlines are the ends of the lines, but for a last line without a
newline. -/
theorem afterNewlines_eq (line s : Text) (off : ℕ) (h : line.getLast? ≠ some '\n') :
    afterNewlines (off + utf8Len line) s ++
        (unterminated (line ++ s)).map (off + ·) = Text.ends off (splitInclusive line s) := by
  induction s generalizing line off with
  | nil =>
    rw [List.append_nil, afterNewlines, splitInclusive, unterminated]
    by_cases hline : line = []
    · rw [if_pos (.inl hline), if_pos hline]
      rfl
    · rw [if_neg (by tauto), if_neg hline]
      rfl
  | cons c s ih =>
    rw [afterNewlines, splitInclusive]
    by_cases hc : c = '\n'
    · rw [if_pos hc, if_pos hc]
      have hone : off + utf8Len line + c.utf8Size = off + utf8Len (line ++ [c]) := by
        simp [Nat.add_assoc]
      have ih := ih [] (off + utf8Len (line ++ [c])) (by simp)
      rw [String.utf8Len_nil, Nat.add_zero, List.nil_append] at ih
      rw [hone, List.cons_append, Text.ends, ← ih]
      congr 2
      unfold unterminated
      cases s with
      | nil => simp [hc]
      | cons d s =>
        have hlast : (line ++ c :: d :: s).getLast? = (d :: s).getLast? := by
          rw [← List.singleton_append, ← List.append_assoc,
            List.getLast?_append_of_ne_nil _ (List.cons_ne_nil d s)]
        rw [hlast]
        by_cases hd : (d :: s).getLast? = some '\n'
        · rw [if_pos (.inr hd), if_pos (.inr hd)]
          rfl
        · rw [if_neg (by simp [hd]), if_neg (by simp [hd])]
          simp [Nat.add_assoc, Nat.add_comm, Nat.add_left_comm]
    · rw [if_neg hc, if_neg hc]
      have hone : off + utf8Len line + c.utf8Size = off + utf8Len (line ++ [c]) := by
        simp [Nat.add_assoc]
      have ih := ih (line ++ [c]) off (by simpa using hc)
      rw [List.append_assoc, List.singleton_append] at ih
      rw [hone, ih]

theorem ends_eq (s : Text) :
    afterNewlines 0 s ++ unterminated s = Text.ends 0 (splitInclusive [] s) := by
  have h := afterNewlines_eq [] s 0 (by simp)
  simpa using h

theorem length_afterNewlines (s : Text) :
    (afterNewlines 0 s).length + (unterminated s).length = len s := by
  have h := congrArg List.length (ends_eq s)
  rw [List.length_append, Text.length_ends] at h
  rw [h, len, lines, List.length_map]

theorem length_unterminated (s : Text) : (unterminated s).length ≤ 1 := by
  unfold unterminated
  split_ifs <;> simp

theorem advance_of_le {idx x : ℕ} {iter : List ℕ} (h : (idx :: iter)[n]? = some x) :
    advance idx n iter = some (x, iter.drop n) := by
  induction n generalizing idx iter with
  | zero => rw [advance, Option.some.inj h, List.drop_zero]
  | succ n ih =>
    cases iter with
    | nil => simp at h
    | cons idx iter =>
      rw [advance, List.drop_succ_cons]
      exact ih h

theorem advance_of_lt {idx : ℕ} {iter : List ℕ} (h : iter.length < n) :
    advance idx n iter = none := by
  induction n generalizing idx iter with
  | zero => omega
  | succ n ih =>
    cases iter with
    | nil => rfl
    | cons idx iter =>
      rw [advance]
      exact ih (by simpa using h)

theorem slice_of_gt (h : j < i) : slice s i j = some none := by
  rw [slice, if_pos h]

/-- An empty slice only looks for its start, before the end of the string is an offset. -/
theorem slice_self (s : Text) (i : ℕ) :
    slice s i i = some (if i ≤ (afterNewlines 0 s).length then some [] else none) := by
  rw [slice, if_neg (by omega)]
  by_cases h : i ≤ (afterNewlines 0 s).length
  · have hlt : i < (0 :: afterNewlines 0 s).length := by
      rw [List.length_cons]
      omega
    rw [if_pos h]
    simp only [advance_of_le (List.getElem?_eq_getElem hlt), Nat.sub_self, if_true]
  · rw [if_neg h]
    simp only [advance_of_lt (Nat.lt_of_not_le h)]

theorem slice_nil (h : i < j) :
    slice [] i j = some (if j ≤ 1 then some [] else none) := by
  by_cases hj : j ≤ 1
  · obtain rfl : i = 0 := by omega
    obtain rfl : j = 1 := by omega
    rfl
  · rw [slice, if_neg (by omega), if_neg hj, if_neg (by simp)]
    cases i with
    | zero =>
      simp only [afterNewlines, advance, if_neg (show ¬ j - 0 = 0 by omega)]
      rw [advance_of_lt]
      simp only [List.nil_append, List.length_singleton]
      omega
    | succ i => rfl

/-- A slice of some lines. The string is not empty, so the end of the string is the end of a
line. -/
theorem slice_of_lt (hs : s ≠ []) (h : i < j) :
    slice s i j = some (if j ≤ len s then some (((splitInclusive [] s).take j).drop i).flatten
      else none) := by
  have hstop : (if s.getLast? = some '\n' then [] else [utf8Len s]) = unterminated s := by
    simp [unterminated, hs]
  have hlength := length_afterNewlines s
  have hlast := length_unterminated s
  have hlen : len s = (splitInclusive [] s).length := by rw [len, lines, List.length_map]
  have hends := ends_eq s
  rw [slice, if_neg (by omega), hstop]
  have hoffset : ∀ k, k ≤ len s → (0 :: (afterNewlines 0 s ++ unterminated s))[k]? =
      some (utf8Len ((splitInclusive [] s).take k).flatten) := by
    intro k hk
    rw [hends, Text.getElem?_ends (hlen ▸ hk), Nat.zero_add]
  by_cases hi : i ≤ (afterNewlines 0 s).length
  · have hstart : (0 :: afterNewlines 0 s)[i]? =
        some (utf8Len ((splitInclusive [] s).take i).flatten) := by
      rw [← hoffset i (by omega), ← List.cons_append, List.getElem?_append_left]
      rw [List.length_cons]
      omega
    have hrest : (afterNewlines 0 s).drop i ++ unterminated s =
        (afterNewlines 0 s ++ unterminated s).drop i := by
      rw [List.drop_append_of_le_length hi]
    simp only [advance_of_le hstart, if_neg (show ¬ j - i = 0 by omega), hrest]
    by_cases hj : j ≤ len s
    · have hnext : (utf8Len ((splitInclusive [] s).take i).flatten ::
          (afterNewlines 0 s ++ unterminated s).drop i)[j - i]? =
          some (utf8Len ((splitInclusive [] s).take j).flatten) := by
        obtain ⟨k, rfl⟩ := Nat.exists_eq_add_of_lt h
        have hk : i + k + 1 - i = k + 1 := by omega
        rw [hk, List.getElem?_cons_succ, List.getElem?_drop, ← hoffset (i + k + 1) hj,
          List.getElem?_cons_succ]
      have hslice := @Text.slice_pieces (splitInclusive [] s) _ _ h.le
      rw [flatten_splitInclusive, List.nil_append] at hslice
      simp only [advance_of_le hnext, if_pos hj, hslice]
      rfl
    · rw [if_neg hj, advance_of_lt]
      rw [List.length_drop, List.length_append]
      omega
  · rw [if_neg (by omega)]
    simp only [advance_of_lt (Nat.lt_of_not_le hi)]

/-- The slices of a string are its lines with their terminators. The empty string has one
empty line there, and after the last line there is an empty slice if nothing is unterminated. -/
theorem slice_lines (s : Text) :
    len s = (list s).length ∧
    (∀ i j, i < j → slice s i j = some (if j ≤ max 1 (len s)
      then some (((splitInclusive [] s).take j).drop i).flatten else none)) ∧
    (∀ i j, j < i → slice s i j = some none) ∧
    (∀ i, (i < len s ∨ i = len s ∧ unterminated s = []) → slice s i i = some (some [])) ∧
    (∀ i, len s < i → slice s i i = some none) ∧
    (∀ k, (k < len s ∨ k = len s ∧ unterminated s = []) →
      ∃ a b, slice s 0 k = some (some a) ∧ slice s k (len s) = some (some b) ∧ a ++ b = s) ∧
    (splitInclusive [] s).flatten = s ∧ list s = (splitInclusive [] s).map stripNewline ∧
    (∀ t ∈ splitInclusive [] s, '\n' ∉ t.dropLast) ∧
    (∀ t ∈ (splitInclusive [] s).dropLast, t.getLast? = some '\n') := by
  have hlength := length_afterNewlines s
  have hlast := length_unterminated s
  have hslice : ∀ i j, i < j → slice s i j = some (if j ≤ max 1 (len s)
      then some (((splitInclusive [] s).take j).drop i).flatten else none) := by
    intro i j hij
    by_cases hs : s = []
    · subst hs
      have hnil : splitInclusive [] [] = [] := rfl
      have hlen : max 1 (len []) = 1 := rfl
      rw [slice_nil hij, hnil, hlen, List.take_nil, List.drop_nil, List.flatten_nil]
    · have hpos : 0 < len s := by
        rw [len, lines, List.length_map, List.length_pos_iff]
        intro hnil
        have hflat := flatten_splitInclusive [] s
        rw [hnil] at hflat
        exact hs hflat.symm
      rw [slice_of_lt hs hij, max_eq_right (by omega)]
  have hself : ∀ i, (i < len s ∨ i = len s ∧ unterminated s = []) →
      slice s i i = some (some []) := by
    intro i hi
    have hin : i ≤ (afterNewlines 0 s).length := by
      rcases hi with hi | ⟨rfl, hnil⟩
      · omega
      · rw [hnil, List.length_nil] at hlength
        omega
    rw [slice_self, if_pos hin]
  refine ⟨rfl, hslice, fun i j h => slice_of_gt h, hself, ?_, ?_, ?_, rfl, ?_, ?_⟩
  · intro i hi
    rw [slice_self, if_neg (by omega)]
  · intro k hk
    have hlen : len s = (splitInclusive [] s).length := by rw [len, lines, List.length_map]
    have hall := flatten_splitInclusive [] s
    have hle : k ≤ len s := by omega
    have hsecond : slice s k (len s) = some (some ((splitInclusive [] s).drop k).flatten) := by
      rcases Nat.lt_or_eq_of_le hle with hlt | rfl
      · rw [hslice k (len s) hlt, if_pos (le_max_right _ _), hlen, List.take_length]
      · rw [hself (len s) hk, hlen, List.drop_length]
        rfl
    have hfirst : slice s 0 k = some (some ((splitInclusive [] s).take k).flatten) := by
      rcases Nat.eq_zero_or_pos k with rfl | hpos
      · rw [hself 0 hk]
        rfl
      · rw [hslice 0 k hpos, if_pos (hle.trans (le_max_right _ _)), List.drop_zero]
    refine ⟨_, _, hfirst, hsecond, ?_⟩
    rw [← List.flatten_append, List.take_append_drop, hall, List.nil_append]
  · rw [flatten_splitInclusive, List.nil_append]
  · exact newline_at_end List.not_mem_nil
  · exact newline_before_last [] s

/-- The first line of the empty string is there as a slice, though it has no lines. -/
theorem empty_has_a_line :
    ¬ ∀ s i j, (∃ t, slice s i j = some (some t)) ↔ i ≤ j ∧ j ≤ len s := by
  intro h
  have hempty := (h [] 0 1).mp ⟨[], rfl⟩
  exact absurd hempty.2 (by decide)

end StringLines

end Roto.Value
