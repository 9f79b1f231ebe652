import RotoCompiler.Parser.Expressions
import RotoCompiler.Parser.LexerSafe

/-!
# The text of f-strings (parser/lexer.rs, parser/expr.rs)

A character of a text is written as itself, with the escape or the doubling that it needs, or
as a `\u` escape. The scan goes over what is written as a whole; what is unescaped and
then collapsed is the text again exactly where no run of braces has two escapes.
-/

namespace Roto.Parser
open Lib
open String (utf8Len)

/-! ### Writing -/

def hexDigit (c : Char) : ℕ :=
  if isAsciiDigit c then c.toNat - 48 else if 'a' ≤ c then c.toNat - 87 else c.toNat - 55

/-- The hexadecimal digits between the braces of a `\u` escape of `c`: one to six, with `_`
anywhere behind the first. -/
def spells (digits : Text) (c : Char) : Bool :=
  (digits.head?.any isAsciiHexdigit) && digits.all (fun d => isAsciiHexdigit d || d = '_') &&
    (digits.filter fun d => d ≠ '_').length ≤ 6 &&
    (digits.filter fun d => d ≠ '_').foldl (fun n d => 16 * n + hexDigit d) 0 = c.toNat

/-- A character, and the digits where it is written as a `\u` escape. -/
structure Letter where
  char : Char
  digits : Option Text
  spelled : ∀ ds ∈ digits, spells ds char = true

abbrev Segment := List Letter

def isBrace (c : Char) : Bool := c = '{' || c = '}'

/-- A character that is written without a `\u` escape. -/
def ownText (c : Char) : Text :=
  if c = '"' then ['\\', '"'] else if c = '\\' then ['\\', '\\']
  else if isBrace c then [c, c] else [c]

def Letter.written (l : Letter) : Text :=
  match l.digits with
  | some ds => '\\' :: 'u' :: '{' :: (ds ++ ['}'])
  | none => ownText l.char

def Segment.text (s : Segment) : Text := s.map Letter.char

def Segment.written (s : Segment) : Text := s.flatMap Letter.written

/-! ### Scanning -/

theorem digits_of_spells {ds : Text} {c : Char} (h : spells ds c = true) :
    ∀ d ∈ ds, isAsciiHexdigit d = true ∨ d = '_' := by
  simp only [spells, Bool.and_eq_true] at h
  have hall := List.all_eq_true.mp h.1.1.2
  intro d hd
  have hd := hall d hd
  simpa using hd

theorem ne_curlyRight_of_digit {d : Char} (h : isAsciiHexdigit d = true ∨ d = '_') : d ≠ '}' := by
  rintro rfl
  rcases h with h | h
  · exact absurd h (by decide)
  · exact absurd h (by decide)

theorem scan_digits (ds : Text) : ∀ (k : ℕ) (tail : Text),
    (∀ d ∈ ds, isAsciiHexdigit d = true ∨ d = '_') →
    fStringScan .digits k (ds ++ '}' :: tail) = fStringScan .outer (k + ds.length + 1) tail := by
  induction ds with
  | nil =>
    intro k tail _
    rw [List.nil_append, fStringScan, if_pos rfl]
    rfl
  | cons d ds ih =>
    intro k tail h
    obtain ⟨hd, hds⟩ := List.forall_mem_cons.mp h
    rw [List.cons_append, fStringScan, if_neg (ne_curlyRight_of_digit hd), ih _ _ hds]
    congr 1
    rw [List.length_cons]
    omega

theorem scan_ownText (c : Char) (k : ℕ) (tail : Text) :
    fStringScan .outer k (ownText c ++ tail) =
      fStringScan .outer (k + (ownText c).length) tail := by
  unfold ownText
  by_cases h1 : c = '"'
  · rw [if_pos h1]
    rfl
  by_cases h2 : c = '\\'
  · rw [if_neg h1, if_pos h2]
    rfl
  by_cases h3 : isBrace c = true
  · rw [if_neg h1, if_neg h2, if_pos h3]
    have hc : c = '{' ∨ c = '}' := by simpa [isBrace] using h3
    rcases hc with rfl | rfl
    · rfl
    · rfl
  · rw [if_neg h1, if_neg h2, if_neg h3]
    have hc : c ≠ '{' := by
      rintro rfl
      exact h3 rfl
    show fStringScan .outer k (c :: tail) = _
    rw [fStringScan, if_neg h2, if_neg hc, if_neg h1]
    rfl

theorem scan_letter (l : Letter) (k : ℕ) (tail : Text) :
    fStringScan .outer k (l.written ++ tail) =
      fStringScan .outer (k + l.written.length) tail := by
  obtain ⟨c, digits, hd⟩ := l
  cases digits with
  | none => exact scan_ownText c k tail
  | some ds =>
    have hds := digits_of_spells (hd ds rfl)
    show fStringScan .outer k ('\\' :: 'u' :: '{' :: (ds ++ ['}']) ++ tail) =
      fStringScan .outer (k + ('\\' :: 'u' :: '{' :: (ds ++ ['}'])).length) tail
    have happ : '\\' :: 'u' :: '{' :: (ds ++ ['}']) ++ tail =
        '\\' :: 'u' :: '{' :: (ds ++ '}' :: tail) := by simp
    rw [happ]
    show fStringScan .digits (k + 1 + 1 + 1) (ds ++ '}' :: tail) = _
    rw [scan_digits ds _ tail hds]
    congr 1
    simp only [List.length_cons, List.length_append, List.length_nil]
    omega

/-- The scan goes on behind what is written. -/
theorem scan_written (s : Segment) : ∀ (k : ℕ) (tail : Text),
    fStringScan .outer k (s.written ++ tail) =
      fStringScan .outer (k + s.written.length) tail := by
  induction s with
  | nil =>
    intro k tail
    rfl
  | cons l s ih =>
    intro k tail
    have hcons : Segment.written (l :: s) = l.written ++ Segment.written s := rfl
    rw [hcons, List.append_assoc, scan_letter, ih, List.length_append]
    congr 1
    omega

/-! ### ASCII -/

theorem ascii_of_utf8Len {s : Text} (h : utf8Len s = s.length) : ∀ c ∈ s, Text.IsAscii c := by
  induction s with
  | nil =>
    intro c hc
    exact absurd hc List.not_mem_nil
  | cons c s ih =>
    rw [String.utf8Len_cons, List.length_cons] at h
    have hpos : 0 < c.utf8Size := Char.utf8Size_pos c
    have hle : s.length ≤ utf8Len s := by
      clear ih h
      induction s with
      | nil => exact le_rfl
      | cons d s ih =>
        have hd : 0 < d.utf8Size := Char.utf8Size_pos d
        rw [String.utf8Len_cons, List.length_cons]
        omega
    have hc : c.utf8Size = 1 := by omega
    exact List.forall_mem_cons.mpr ⟨hc, ih (by omega)⟩

theorem ascii_of_le {c : Char} (h : c.toNat ≤ 127) : Text.IsAscii c := by
  unfold Text.IsAscii Char.utf8Size
  have hle : c.val ≤ 0x7f := h
  exact if_pos hle

theorem ascii_of_digit {d : Char} (h : isAsciiHexdigit d = true ∨ d = '_') : Text.IsAscii d := by
  rcases h with h | rfl
  · apply ascii_of_le
    have hle : ∀ a b : Char, a ≤ b → a.toNat ≤ b.toNat := fun a b hab => hab
    simp only [isAsciiHexdigit, isAsciiDigit, Bool.or_eq_true, Bool.and_eq_true,
      decide_eq_true_eq] at h
    rcases h with (⟨-, h⟩ | ⟨-, h⟩) | ⟨-, h⟩
    · exact (hle _ _ h).trans (by decide)
    · exact (hle _ _ h).trans (by decide)
    · exact (hle _ _ h).trans (by decide)
  · decide

/-- What is written is ASCII if and only if the characters without an escape are. -/
theorem written_ascii_iff (s : Segment) :
    (∀ c ∈ s.written, Text.IsAscii c) ↔ ∀ l ∈ s, l.digits = none → Text.IsAscii l.char := by
  have hletter : ∀ l : Letter,
      (∀ c ∈ l.written, Text.IsAscii c) ↔ (l.digits = none → Text.IsAscii l.char) := by
    intro l
    obtain ⟨c, digits, hd⟩ := l
    cases digits with
    | some ds =>
      have hds := digits_of_spells (hd ds rfl)
      refine ⟨fun _ h => (nomatch h), fun _ x hx => ?_⟩
      simp only [Letter.written, List.mem_cons, List.mem_append, List.not_mem_nil,
        or_false] at hx
      rcases hx with rfl | rfl | rfl | hx | rfl
      · decide
      · decide
      · decide
      · exact ascii_of_digit (hds x hx)
      · decide
    | none =>
      show (∀ x ∈ ownText c, Text.IsAscii x) ↔ (none = none → Text.IsAscii c)
      have hpair : ∀ y, Text.IsAscii y → ∀ x ∈ ['\\', y], Text.IsAscii x := by
        intro y hy x hx
        simp only [List.mem_cons, List.not_mem_nil, or_false] at hx
        rcases hx with rfl | rfl
        · decide
        · exact hy
      unfold ownText
      split_ifs with h1 h2 h3
      · subst h1
        exact ⟨fun _ _ => by decide, fun _ => hpair _ (by decide)⟩
      · subst h2
        exact ⟨fun _ _ => by decide, fun _ => hpair _ (by decide)⟩
      · simp
      · simp
  unfold Segment.written
  simp only [List.mem_flatMap, forall_exists_index, and_imp]
  constructor
  · intro h l hl
    exact (hletter l).mp fun c hc => h c l hl hc
  · intro h c l hl hc
    exact (hletter l).mpr (h l hl) c hc

/-! ### Unescaping -/

/-- What `rustc_literal_escaper::unescape_str` is documented to do with what is written here. -/
structure UnescapesStr (unescapeStr : Text → Except String Text) : Prop where
  nil : unescapeStr [] = .ok []
  plain : ∀ c s, c ≠ '\\' → c ≠ '"' → c ≠ '\r' →
    unescapeStr (c :: s) = (unescapeStr s).map (c :: ·)
  quote : ∀ s, unescapeStr ('\\' :: '"' :: s) = (unescapeStr s).map ('"' :: ·)
  backslash : ∀ s, unescapeStr ('\\' :: '\\' :: s) = (unescapeStr s).map ('\\' :: ·)
  unicode : ∀ ds c s, spells ds c = true →
    unescapeStr ('\\' :: 'u' :: '{' :: (ds ++ '}' :: s)) = (unescapeStr s).map (c :: ·)
  bareCr : ∀ s, ∃ e, unescapeStr ('\r' :: s) = .error e

def Letter.unescaped (l : Letter) : Text :=
  if l.digits = none ∧ isBrace l.char = true then [l.char, l.char] else [l.char]

def Segment.unescaped (s : Segment) : Text := s.flatMap Letter.unescaped

theorem map_map_ok {f g : Text → Text} (r : Except String Text) :
    (r.map f).map g = r.map (g ∘ f) := by
  cases r with
  | error e => rfl
  | ok a => rfl

theorem unescape_letter {f : Text → Except String Text} (hf : UnescapesStr f) (l : Letter)
    (hcr : l.digits = none → l.char ≠ '\r') (tail : Text) :
    f (l.written ++ tail) = (f tail).map (l.unescaped ++ ·) := by
  obtain ⟨c, digits, hd⟩ := l
  cases digits with
  | some ds =>
    have hun : Letter.unescaped ⟨c, some ds, hd⟩ = [c] :=
      if_neg fun h => absurd h.1 (Option.some_ne_none ds)
    have happ : Letter.written ⟨c, some ds, hd⟩ ++ tail =
        '\\' :: 'u' :: '{' :: (ds ++ '}' :: tail) := by
      simp [Letter.written]
    rw [happ, hf.unicode ds c tail (hd ds rfl), hun]
    rfl
  | none =>
    have hcr : c ≠ '\r' := hcr rfl
    show f (ownText c ++ tail) = _
    unfold ownText
    by_cases h1 : c = '"'
    · subst h1
      exact hf.quote tail
    by_cases h2 : c = '\\'
    · subst h2
      exact hf.backslash tail
    have hplain := fun s => hf.plain c s h2 h1 hcr
    by_cases h3 : isBrace c = true
    · have hun : Letter.unescaped ⟨c, none, hd⟩ = [c, c] := if_pos ⟨rfl, h3⟩
      rw [if_neg h1, if_neg h2, if_pos h3, hun]
      show f (c :: c :: tail) = _
      rw [hplain, hplain, map_map_ok]
      rfl
    · have hun : Letter.unescaped ⟨c, none, hd⟩ = [c] := if_neg fun h => h3 h.2
      rw [if_neg h1, if_neg h2, if_neg h3, hun]
      exact hplain tail

theorem unescape_written {f : Text → Except String Text} (hf : UnescapesStr f) (s : Segment)
    (hcr : ∀ l ∈ s, l.digits = none → l.char ≠ '\r') : f s.written = .ok s.unescaped := by
  induction s with
  | nil => exact hf.nil
  | cons l s ih =>
    obtain ⟨hl, hs⟩ := List.forall_mem_cons.mp hcr
    have hcons : Segment.written (l :: s) = l.written ++ Segment.written s := rfl
    rw [hcons, unescape_letter hf l hl, ih hs]
    rfl

/-- A carriage return that is written as itself is an error. -/
theorem unescape_cr {f : Text → Except String Text} (hf : UnescapesStr f) (s : Segment)
    (hcr : ∃ l ∈ s, l.digits = none ∧ l.char = '\r') : ∃ e, f s.written = .error e := by
  induction s with
  | nil =>
    obtain ⟨l, hl, -⟩ := hcr
    exact absurd hl List.not_mem_nil
  | cons l s ih =>
    have hcons : Segment.written (l :: s) = l.written ++ Segment.written s := rfl
    by_cases hl : l.digits = none ∧ l.char = '\r'
    · have hown : l.written = ['\r'] := by
        unfold Letter.written
        rw [hl.1, hl.2]
        rfl
      rw [hcons, hown]
      exact hf.bareCr _
    · obtain ⟨l', hmem, hl'⟩ := hcr
      have hmem : l' ∈ s := by
        rcases List.mem_cons.mp hmem with rfl | hmem
        · exact absurd hl' hl
        · exact hmem
      obtain ⟨e, he⟩ := ih ⟨l', hmem, hl'⟩
      rw [hcons, unescape_letter hf l fun hnone hc => hl ⟨hnone, hc⟩, he]
      exact ⟨e, rfl⟩

/-! ### Collapsing -/

/-- `replaceDoubled`, with whether the last character was a `c` that a second one may follow. -/
def collapseOne (c : Char) : Bool → Text → Text
  | _, [] => []
  | half, x :: s =>
    if x = c then (if half then collapseOne c false s else x :: collapseOne c true s)
    else x :: collapseOne c false s

theorem replaceDoubled_eq (c : Char) (s : Text) :
    Parse.replaceDoubled c s = collapseOne c false s := by
  fun_induction Parse.replaceDoubled c s with
  | case1 => rfl
  | case2 x =>
    by_cases hx : x = c
    · simp [collapseOne, hx]
    · simp [collapseOne, hx]
  | case3 x y rest hxy ih =>
    obtain ⟨rfl, rfl⟩ := hxy
    simp [collapseOne, ih]
  | case4 x y rest hxy ih =>
    rw [ih]
    by_cases hx : x = c
    · have hy : ¬ y = c := fun hy => hxy ⟨hx, hy⟩
      simp [collapseOne, hx, hy]
    · simp [collapseOne, hx]

/-- Both replacements at once, with the brace that a second one may follow. -/
def collapse : Option Char → Text → Text
  | _, [] => []
  | half, c :: s =>
    if isBrace c then (if half = some c then collapse none s else c :: collapse (some c) s)
    else c :: collapse none s

theorem isBrace_cases {c : Char} (h : isBrace c = true) : c = '{' ∨ c = '}' := by
  simpa [isBrace] using h

theorem collapse_eq (s : Text) :
    collapseOne '}' false (collapseOne '{' false s) = collapse none s ∧
      collapseOne '}' false (collapseOne '{' true s) = collapse (some '{') s ∧
      collapseOne '}' true (collapseOne '{' false s) = collapse (some '}') s := by
  induction s with
  | nil => exact ⟨rfl, rfl, rfl⟩
  | cons c s ih =>
    obtain ⟨h1, h2, h3⟩ := ih
    by_cases hb : isBrace c = true
    · rcases isBrace_cases hb with rfl | rfl
      · simp [collapseOne, collapse, isBrace, h1, h2]
      · simp [collapseOne, collapse, isBrace, h1, h3]
    · have hl : c ≠ '{' := by
        rintro rfl
        exact hb rfl
      have hr : c ≠ '}' := by
        rintro rfl
        exact hb rfl
      simp [collapseOne, collapse, hb, hl, hr, h1]

/-- No run of equal braces has two that are written as `\u` escapes; `half` is the brace of the
current run, when one of it is. -/
def bracesOk : Option Char → Segment → Bool
  | _, [] => true
  | half, l :: s =>
    if isBrace l.char then
      match l.digits with
      | none => bracesOk (if half = some l.char then half else none) s
      | some _ => half ≠ some l.char && bracesOk (some l.char) s
    else bracesOk none s

/-- A doubled brace stays one brace, and an escaped one goes where it follows another. -/
theorem collapse_letter (half : Option Char) (l : Letter) (tail : Text) :
    collapse half (l.unescaped ++ tail) =
      if isBrace l.char then
        match l.digits with
        | none => l.char :: collapse (if half = some l.char then half else none) tail
        | some _ =>
          if half = some l.char then collapse none tail
          else l.char :: collapse (some l.char) tail
      else l.char :: collapse none tail := by
  obtain ⟨c, digits, hd⟩ := l
  by_cases hb : isBrace c = true
  · cases digits with
    | none =>
      have hun : Letter.unescaped ⟨c, none, hd⟩ = [c, c] := if_pos ⟨rfl, hb⟩
      rw [hun]
      by_cases hh : half = some c
      · simp [collapse, hb, hh]
      · simp [collapse, hb, hh]
    | some ds =>
      have hun : Letter.unescaped ⟨c, some ds, hd⟩ = [c] :=
        if_neg fun h => absurd h.1 (Option.some_ne_none ds)
      rw [hun]
      simp [collapse, hb]
  · have hun : Letter.unescaped ⟨c, digits, hd⟩ = [c] := if_neg fun h => hb h.2
    rw [hun]
    simp [collapse, hb]

theorem collapse_length (s : Segment) : ∀ half, (collapse half s.unescaped).length ≤ s.length := by
  induction s with
  | nil =>
    intro half
    cases half <;> exact le_rfl
  | cons l s ih =>
    intro half
    have hcons : Segment.unescaped (l :: s) = l.unescaped ++ Segment.unescaped s := rfl
    rw [hcons, collapse_letter, List.length_cons]
    split
    · split
      · exact Nat.succ_le_succ (ih _)
      · split
        · exact (ih none).trans (Nat.le_succ _)
        · exact Nat.succ_le_succ (ih _)
    · exact Nat.succ_le_succ (ih _)

theorem collapse_iff (s : Segment) : ∀ half,
    collapse half s.unescaped = s.text ↔ bracesOk half s = true := by
  induction s with
  | nil =>
    intro half
    cases half <;> simp [Segment.unescaped, Segment.text, collapse, bracesOk]
  | cons l s ih =>
    intro half
    have hcons : Segment.unescaped (l :: s) = l.unescaped ++ Segment.unescaped s := rfl
    have htext : Segment.text (l :: s) = l.char :: Segment.text s := rfl
    rw [hcons, collapse_letter, htext]
    unfold bracesOk
    by_cases hb : isBrace l.char = true
    · rw [if_pos hb, if_pos hb]
      cases l.digits with
      | none =>
        rw [← ih]
        exact List.cons_inj_right _
      | some ds =>
        by_cases hh : half = some l.char
        · simp only [hh, if_true, ne_eq, not_true_eq_false, decide_false, Bool.false_and,
            Bool.false_eq_true, iff_false]
          -- a character has gone, so the text is too short
          intro heq
          have hlen := congrArg List.length heq
          have hle := collapse_length s none
          rw [List.length_cons] at hlen
          have htl : (Segment.text s).length = s.length := List.length_map _
          omega
        · simp only [hh, if_false, ne_eq, not_false_eq_true, decide_true, Bool.true_and]
          rw [← ih]
          exact List.cons_inj_right _
    · rw [if_neg hb, if_neg hb, ← ih]
      exact List.cons_inj_right _

/-- The text that the parser makes of what is written. -/
theorem fStringText_iff {ext : Externals} (hext : UnescapesStr ext.unescapeStr) (s : Segment) :
    Parse.fStringText ext s.written = .ok s.text ↔
      (∀ l ∈ s, l.digits = none → l.char ≠ '\r') ∧ bracesOk none s = true := by
  unfold Parse.fStringText
  by_cases hcr : ∀ l ∈ s, l.digits = none → l.char ≠ '\r'
  · rw [unescape_written hext s hcr]
    show Except.ok (Parse.replaceDoubled '}' (Parse.replaceDoubled '{' s.unescaped)) = _ ↔ _
    rw [replaceDoubled_eq, replaceDoubled_eq, (collapse_eq _).1, ← collapse_iff]
    constructor
    · intro h
      exact ⟨hcr, Except.ok.inj h⟩
    · intro h
      rw [h.2]
  · refine ⟨fun h => ?_, fun h => absurd h.1 hcr⟩
    push Not at hcr
    obtain ⟨e, he⟩ := unescape_cr hext s hcr
    rw [he] at h
    cases h

end Roto.Parser
