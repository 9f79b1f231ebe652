import RotoCompiler.Parser.LexerRun

/-!
# The lexer cuts between characters

All sub-lexers but two cut the input before a tail of it. The first character of an
identifier and the text of an f-string are cut by other counts, which are right for ASCII
characters only.
-/

namespace Roto.Parser
open Lib
open String (utf8Len)

variable {u : Unicode} {l : Lexer} {tail text : Text}

/-! ### Tails -/

theorem eatWhile_suffix (p : Char → Bool) (tail : Text) : (eatWhile p tail).2 <:+ tail :=
  List.dropWhile_suffix p

theorem eatChar_suffix (c : Char) (tail : Text) : (eatChar c tail).2 <:+ tail := by
  cases tail with
  | nil => exact List.suffix_refl _
  | cons x tail =>
    simp only [eatChar]
    split_ifs
    · exact List.suffix_cons _ _
    · exact List.suffix_refl _

theorem eatOneOf_suffix (options : List Char) (tail : Text) :
    (eatOneOf options tail).2 <:+ tail := by
  cases tail with
  | nil => exact List.suffix_refl _
  | cons x tail =>
    simp only [eatOneOf]
    split_ifs
    · exact List.suffix_cons _ _
    · exact List.suffix_refl _

theorem eatStr_suffix (s : String) (tail : Text) : (eatStr s tail).2 <:+ tail := by
  unfold eatStr
  split_ifs
  · exact List.drop_suffix _ _
  · exact List.suffix_refl _

theorem eatUntil_suffix (c : Char) (tail : Text) : eatUntil c tail <:+ tail :=
  (List.tail_suffix _).trans (List.dropWhile_suffix _)

theorem eatUntilQuote_suffix (quote : Char) (b : Bool) (tail : Text) :
    eatUntilQuote quote b tail <:+ tail := by
  induction tail generalizing b with
  | nil => exact List.suffix_refl _
  | cons c tail ih =>
    unfold eatUntilQuote
    split_ifs
    · exact (ih _).trans (List.suffix_cons _ _)
    · exact List.suffix_cons _ _
    · exact (ih _).trans (List.suffix_cons _ _)

theorem eatGroups_suffix {digit : Char → Bool} {needDigit : Bool} {sep : Char} {count : ℕ}
    {tail tail' : Text} (h : eatGroups digit needDigit sep count tail = some tail') :
    tail' <:+ tail := by
  induction count generalizing tail with
  | zero =>
    obtain rfl := Option.some.inj h
    exact List.suffix_refl _
  | succ count ih =>
    have hwhile := eatWhile_suffix digit tail
    have hchar := eatChar_suffix sep (eatWhile digit tail).2
    simp only [eatGroups] at h
    split_ifs at h
    exact (ih h).trans (hchar.trans hwhile)

theorem floatPart_suffix (u : Unicode) (tail : Text) : (floatPart u tail).2 <:+ tail := by
  have exponent : ∀ (b : Bool) (t : Text),
      (if (eatOneOf ['e', 'E'] t).1 then
          (true, (eatWhile isRotoDigit (eatOneOf ['+', '-'] (eatOneOf ['e', 'E'] t).2).2).2)
        else (b, (eatOneOf ['e', 'E'] t).2) : Bool × Text).2 <:+ t := by
    intro b t
    have he := eatOneOf_suffix ['e', 'E'] t
    have hsign := eatOneOf_suffix ['+', '-'] (eatOneOf ['e', 'E'] t).2
    have hdigits := eatWhile_suffix isRotoDigit (eatOneOf ['+', '-'] (eatOneOf ['e', 'E'] t).2).2
    split_ifs
    · exact hdigits.trans (hsign.trans he)
    · exact he
  unfold floatPart
  split
  · split_ifs
    · exact List.suffix_refl _
    · exact (exponent _ _).trans ((eatWhile_suffix _ _).trans (List.suffix_cons _ _))
  · exact (exponent true []).trans (List.suffix_cons '.' [])
  · exact exponent _ _

theorem skipLoop_suffix (b : Bool) (tail : Text) : skipLoop b tail <:+ tail := by
  induction tail generalizing b with
  | nil => exact List.suffix_refl _
  | cons c tail ih =>
    unfold skipLoop
    split_ifs
    · exact (ih _).trans (List.suffix_cons _ _)
    · exact (ih _).trans (List.suffix_cons _ _)
    · exact (ih _).trans (List.suffix_cons _ _)
    · exact (ih _).trans (List.suffix_cons _ _)
    · exact List.suffix_refl _

/-! ### Cuts -/

/-- The span of what is cut off the input before a tail. -/
def cutSpan (l : Lexer) (tail : Text) : Span :=
  ⟨l.originalLength - utf8Len l.input, l.originalLength - utf8Len tail⟩

theorem bump_eq {a : Text} (h : a ++ tail = l.input) :
    l.bump (utf8Len a) = some ((a, cutSpan l tail), { l with input := tail }) := by
  have hsplit := Text.splitAt_append a tail
  rw [h] at hsplit
  simp only [Lexer.bump, hsplit]
  rfl

theorem bumpTo_eq (h : tail <:+ l.input) :
    ∃ a, a ++ tail = l.input ∧
      l.bumpTo tail = some ((a, cutSpan l tail), { l with input := tail }) := by
  obtain ⟨a, ha⟩ := h
  have hlen : utf8Len l.input - utf8Len tail = utf8Len a := by
    rw [← ha, String.utf8Len_append]
    omega
  exact ⟨a, ha, by rw [Lexer.bumpTo, hlen, bump_eq ha]⟩

/-- No panic, and a break cuts the input before a tail. -/
def Cuts (l : Lexer) : Option Flow → Prop
  | none => False
  | some .cont => True
  | some (.brk _ span l') =>
    ∃ tail, tail <:+ l.input ∧ l' = { l with input := tail } ∧ span = cutSpan l tail

theorem brkTo_cuts (h : tail <:+ l.input) (token : Text → Token) :
    Cuts l (brkTo l tail token) := by
  obtain ⟨a, -, hbump⟩ := bumpTo_eq h
  rw [brkTo, hbump]
  exact ⟨tail, h, rfl, rfl⟩

theorem ipv6_cuts : Cuts l (ipv6 l) := by
  unfold ipv6
  split
  · trivial
  · next tail h => exact brkTo_cuts ((eatWhile_suffix _ _).trans (eatGroups_suffix h)) _

theorem ipv4_cuts : Cuts l (ipv4 l) := by
  unfold ipv4
  split
  · trivial
  · next tail h => exact brkTo_cuts ((eatWhile_suffix _ _).trans (eatGroups_suffix h)) _

theorem twoChars_ascii : ∀ e ∈ twoChars,
    e.1.val.toUInt8.toNat < 128 ∧ e.2.1.val.toUInt8.toNat < 128 := by decide

theorem oneChars_ascii : ∀ e ∈ oneChars, e.1.val.toUInt8.toNat < 128 := by decide

theorem twoCharPunctuation_cuts : Cuts l (twoCharPunctuation l) := by
  unfold twoCharPunctuation
  split
  · next x y t hbytes =>
    split
    · trivial
    · next p q tok hfind =>
      have hmem := List.mem_of_find?_eq_some hfind
      have heq := List.find?_some hfind
      simp only [decide_eq_true_eq] at heq
      obtain ⟨rfl, rfl⟩ := heq
      obtain ⟨hp, hq⟩ := twoChars_ascii _ hmem
      obtain ⟨c, s, hs, hc, hbytes⟩ := Text.cons_of_byte hbytes hp
      obtain ⟨d, s', rfl, hd, -⟩ := Text.cons_of_byte hbytes hq
      have hlen : utf8Len [c, d] = 2 := by
        simp only [String.utf8Len_cons, String.utf8Len_nil]
        rw [hc, hd]
      have hbump := bump_eq (l := l) (a := [c, d]) hs.symm
      rw [hlen] at hbump
      rw [hbump]
      exact ⟨s', ⟨[c, d], hs.symm⟩, rfl, rfl⟩
  · trivial

theorem oneCharPunctuation_cuts : Cuts l (oneCharPunctuation l) := by
  unfold oneCharPunctuation
  split
  · next x t hbytes =>
    split
    · trivial
    · next p tok hfind =>
      have hmem := List.mem_of_find?_eq_some hfind
      have heq := List.find?_some hfind
      simp only [decide_eq_true_eq] at heq
      obtain rfl := heq
      obtain ⟨c, s, hs, hc, -⟩ := Text.cons_of_byte hbytes (oneChars_ascii _ hmem)
      have hlen : utf8Len [c] = 1 := by
        simp only [String.utf8Len_cons, String.utf8Len_nil]
        rw [hc]
      have hbump := bump_eq (l := l) (a := [c]) hs.symm
      rw [hlen] at hbump
      rw [hbump]
      exact ⟨s, ⟨[c], hs.symm⟩, rfl, rfl⟩
  · trivial

theorem asNumber_cuts : Cuts l (asNumber l) := by
  have hstr := eatStr_suffix "AS" l.input
  have hdigits := eatWhile_suffix isAsciiDigit (eatStr "AS" l.input).2
  unfold asNumber
  dsimp only
  split_ifs
  · trivial
  · trivial
  · exact brkTo_cuts (hdigits.trans hstr) _

theorem hexNumber_cuts : Cuts l (hexNumber l) := by
  have hstr := eatStr_suffix "0x" l.input
  have hdigits := eatWhile_suffix isAsciiHexdigit (eatStr "0x" l.input).2
  unfold hexNumber
  dsimp only
  split_ifs
  · trivial
  · exact brkTo_cuts (hdigits.trans hstr) _

/-- The number and its suffix are split where the number was found to end. -/
theorem number_cuts : Cuts l (number u l) := by
  unfold number
  split
  · trivial
  split_ifs
  · trivial
  have hdigits := eatWhile_suffix isRotoDigit l.input
  have hfloat := (floatPart_suffix u (eatWhile isRotoDigit l.input).2).trans hdigits
  have hsuffix := eatWhile_suffix (fun c => u.isXidContinue c || c = '_')
    (floatPart u (eatWhile isRotoDigit l.input).2).2
  dsimp only
  generalize (floatPart u (eatWhile isRotoDigit l.input).2).1 = isFloat
  generalize (floatPart u (eatWhile isRotoDigit l.input).2).2 = t₁ at hfloat hsuffix ⊢
  generalize (eatWhile (fun c => u.isXidContinue c || c = '_') t₁).2 = t₂ at hsuffix ⊢
  obtain ⟨a, ha, hbump⟩ := bumpTo_eq (hsuffix.trans hfloat)
  obtain ⟨p, hp⟩ := hfloat
  obtain ⟨q, hq⟩ := hsuffix
  have hlen : utf8Len l.input - utf8Len t₁ = utf8Len p := by
    rw [← hp, String.utf8Len_append]
    omega
  have hpq : a = p ++ q := by
    rw [← hp, ← hq, ← List.append_assoc] at ha
    exact List.append_cancel_right ha
  have hsplit : Text.splitAt a (utf8Len l.input - utf8Len t₁) = some (p, q) := by
    rw [hlen, hpq, Text.splitAt_append]
  rw [hbump]
  simp only [bind, Option.bind, hsplit]
  exact ⟨t₂, ⟨a, ha⟩, rfl, rfl⟩

theorem fString_cuts : Cuts l (fString l) := by
  have hstr := eatStr_suffix "f\"" l.input
  unfold fString
  dsimp only
  split_ifs
  · trivial
  · exact brkTo_cuts hstr _

theorem quoted_cuts (quote : Char) (token : Text → Token) : Cuts l (quoted quote token l) := by
  have hchar := eatChar_suffix quote l.input
  have hquote := eatUntilQuote_suffix quote false (eatChar quote l.input).2
  unfold quoted
  dsimp only
  split_ifs
  · trivial
  · trivial
  · exact brkTo_cuts (hquote.trans hchar) _

theorem keywordOrIdent_cuts (h : ∀ c tail, l.input = c :: tail → Text.IsAscii c) :
    Cuts l (keywordOrIdent u l) := by
  unfold keywordOrIdent
  split
  · trivial
  · next c tail hinput =>
    split_ifs
    · trivial
    · have hsplit := Text.splitAt_ascii (h c tail hinput) tail
      rw [← hinput] at hsplit
      simp only [hsplit, bind, Option.bind]
      exact brkTo_cuts ((eatWhile_suffix _ _).trans (hinput ▸ List.suffix_cons _ _)) _

theorem firstOf_cuts {fs : List SubLexer} (h : ∀ f ∈ fs, Cuts l (f l)) :
    Cuts l (firstOf fs l) := by
  induction fs with
  | nil => trivial
  | cons f fs ih =>
    obtain ⟨hf, hfs⟩ := List.forall_mem_cons.mp h
    unfold firstOf
    split
    · exact ih hfs
    · exact hf

theorem subLexers_cuts (h : ∀ c tail, l.input = c :: tail → Text.IsAscii c) :
    Cuts l (firstOf (subLexers u) l) := by
  refine firstOf_cuts ?_
  simp only [subLexers, List.forall_mem_cons, List.not_mem_nil, false_implies, implies_true,
    and_true]
  exact ⟨ipv6_cuts, ipv4_cuts, twoCharPunctuation_cuts, oneCharPunctuation_cuts, asNumber_cuts,
    hexNumber_cuts, number_cuts, fString_cuts, quoted_cuts _ _, quoted_cuts _ _,
    keywordOrIdent_cuts h⟩

theorem skipWhitespace_eq (l : Lexer) :
    skipWhitespace l = some { l with input := skipLoop false l.input } := by
  have hsuffix := skipLoop_suffix false l.input
  obtain ⟨a, ha, hbump⟩ := bumpTo_eq hsuffix
  unfold skipWhitespace
  dsimp only
  split_ifs with hlt
  · rw [hbump]
    rfl
  · have hlen := congrArg utf8Len ha
    rw [String.utf8Len_append] at hlen
    have hnil : a = [] := String.utf8Len_eq_zero.mp (by omega)
    rw [hnil, List.nil_append] at ha
    rw [ha]

/-! ### Spans -/

/-- A span that the source can be sliced with. -/
structure SpanOk (text : Text) (s : Span) : Prop where
  start_le : s.start ≤ s.stop
  stop_le : s.stop ≤ utf8Len text
  start_boundary : text.IsBoundary s.start
  stop_boundary : text.IsBoundary s.stop

/-- The input is what is left of the text. -/
structure Within (text : Text) (l : Lexer) : Prop where
  length_eq : l.originalLength = utf8Len text
  suffix : l.input <:+ text

theorem Within.cut (h : Within text l) (ht : tail <:+ l.input) :
    Within text { l with input := tail } := ⟨h.length_eq, ht.trans h.suffix⟩

theorem Within.cutSpan_ok (h : Within text l) (ht : tail <:+ l.input) :
    SpanOk text (cutSpan l tail) := by
  have hlen := Text.utf8Len_suffix ht
  have hlen' := Text.utf8Len_suffix h.suffix
  have hstart := Text.isBoundary_suffix h.suffix
  have hstop := Text.isBoundary_suffix (ht.trans h.suffix)
  rw [← h.length_eq] at hstart hstop
  have heq := h.length_eq
  exact ⟨by simp only [cutSpan]; omega, by simp only [cutSpan]; omega, hstart, hstop⟩

/-! ### One token -/

/-- The next token, after white space and comments, starts with an ASCII character. -/
def FirstAscii (l : Lexer) : Prop :=
  ∀ c tail, skipLoop false l.input = c :: tail → Text.IsAscii c

/-- Lexing one token does not panic and gives a good span. -/
theorem nextInner_ok (h : Within text l) (hascii : FirstAscii l) :
    ∃ r l', nextInner u l = some (r, l') ∧ Within text l' ∧ l'.peeked = l.peeked ∧
      ∀ t, r = some t → SpanOk text t.2 := by
  have hskip := skipWhitespace_eq l
  have hwithin := h.cut (skipLoop_suffix false l.input)
  generalize hl₁ : ({ l with input := skipLoop false l.input } : Lexer) = l₁ at hskip hwithin
  have hpeeked : l₁.peeked = l.peeked := by rw [← hl₁]
  have hfirst : ∀ c tail, l₁.input = c :: tail → Text.IsAscii c := by
    rw [← hl₁]
    exact hascii
  simp only [nextInner, hskip, bind, Option.bind]
  by_cases hempty : l₁.input.isEmpty
  · rw [if_pos hempty]
    exact ⟨none, l₁, rfl, hwithin, hpeeked, fun t ht => by cases ht⟩
  rw [if_neg hempty]
  have hcuts := subLexers_cuts (u := u) hfirst
  cases hflow : firstOf (subLexers u) l₁ with
  | none =>
    rw [hflow] at hcuts
    exact hcuts.elim
  | some flow =>
    rw [hflow] at hcuts
    cases flow with
    | brk tok span l₂ =>
      obtain ⟨tail, htail, rfl, rfl⟩ := hcuts
      refine ⟨_, _, rfl, hwithin.cut htail, hpeeked, ?_⟩
      rintro t ht
      obtain rfl := Option.some.inj ht
      exact hwithin.cutSpan_ok htail
    | cont =>
      refine ⟨_, _, rfl, hwithin, hpeeked, ?_⟩
      rintro t ht
      obtain rfl := Option.some.inj ht
      obtain ⟨c, rest, hinput⟩ : ∃ c rest, l₁.input = c :: rest := by
        cases hinput : l₁.input with
        | nil => simp [hinput] at hempty
        | cons c rest => exact ⟨c, rest, rfl⟩
      -- the span of the first character, which is one byte
      have hrest : rest <:+ l₁.input := hinput ▸ List.suffix_cons c rest
      have hok := hwithin.cutSpan_ok hrest
      have hspan : cutSpan l₁ rest = ⟨l₁.originalLength - utf8Len l₁.input,
          l₁.originalLength - utf8Len l₁.input + 1⟩ := by
        have hle := Text.utf8Len_suffix hwithin.suffix
        have hone : c.utf8Size = 1 := hfirst c rest hinput
        have hlen : utf8Len l₁.input = utf8Len rest + 1 := by
          rw [hinput, String.utf8Len_cons, hone]
        have heq := hwithin.length_eq
        simp only [cutSpan, Span.mk.injEq, true_and]
        omega
      rw [hspan] at hok
      exact hok

/-! ### Parts of f-strings -/

/-- Where the scan stops there is a character of the text, and at a quote it is the quote. -/
theorem fStringScan_stop {mode : ScanMode} {k : ℕ} {s : Text} :
    match fStringScan mode k s with
    | none => True
    | some (.curly i) => k ≤ i ∧ i - k ≤ s.length
    | some (.quote i) => k ≤ i ∧ s[i - k]? = some '"' := by
  induction s generalizing mode k with
  | nil => cases mode <;> trivial
  | cons c s ih =>
    have step : ∀ m, match fStringScan m (k + 1) s with
        | none => True
        | some (.curly i) => k ≤ i ∧ i - k ≤ (c :: s).length
        | some (.quote i) => k ≤ i ∧ (c :: s)[i - k]? = some '"' := by
      intro m
      have h := @ih m (k + 1)
      cases hscan : fStringScan m (k + 1) s with
      | none => trivial
      | some e =>
        rw [hscan] at h
        cases e with
        | curly i =>
          obtain ⟨hle, hlen⟩ := h
          exact ⟨by omega, by simp only [List.length_cons]; omega⟩
        | quote i =>
          obtain ⟨hle, hget⟩ := h
          have hsub : i - k = i - (k + 1) + 1 := by omega
          exact ⟨by omega, by rw [hsub]; exact hget⟩
    cases mode with
    | outer =>
      unfold fStringScan
      split_ifs with h1 h2 h3
      · exact step _
      · exact step _
      · exact ⟨le_rfl, by simp [h3]⟩
      · exact step _
    | escape =>
      unfold fStringScan
      split_ifs
      · exact step _
      · exact step _
    | unicode =>
      unfold fStringScan
      split_ifs
      · exact step _
      · trivial
    | digits =>
      unfold fStringScan
      split_ifs
      · exact step _
      · exact step _
    | curly =>
      unfold fStringScan
      split_ifs
      · exact step _
      · exact ⟨le_rfl, by simp⟩

theorem utf8Len_ascii {s : Text} (h : ∀ c ∈ s, Text.IsAscii c) : utf8Len s = s.length := by
  induction s with
  | nil => rfl
  | cons c s ih =>
    obtain ⟨hc, hs⟩ := List.forall_mem_cons.mp h
    rw [String.utf8Len_cons, ih hs, hc, List.length_cons]

/-- A count of ASCII characters is a count of bytes. -/
theorem bump_ascii {i : ℕ} (hi : i ≤ l.input.length)
    (h : ∀ c ∈ l.input.take i, Text.IsAscii c) :
    l.bump i =
      some ((l.input.take i, cutSpan l (l.input.drop i)), { l with input := l.input.drop i }) := by
  have hlen : utf8Len (l.input.take i) = i := by
    rw [utf8Len_ascii h, List.length_take, min_eq_left hi]
  have hbump := bump_eq (l := l) (List.take_append_drop i l.input)
  rwa [hlen] at hbump

/-- The text up to the end of the next part of the f-string is ASCII. -/
def PartAscii (l : Lexer) : Prop :=
  match fStringScan .outer 0 l.input with
  | none => True
  | some (.curly i) => ∀ c ∈ l.input.take (i - 1), Text.IsAscii c
  | some (.quote i) => ∀ c ∈ l.input.take i, Text.IsAscii c

theorem fStringPart_ok (h : Within text l) (hascii : PartAscii l) :
    ∃ r l', fStringPart l = some (r, l') ∧ Within text l' ∧ l'.peeked = l.peeked ∧
      ∀ p, r = some p → SpanOk text p.2 := by
  have hstop := @fStringScan_stop .outer 0 l.input
  unfold PartAscii at hascii
  unfold fStringPart
  cases hscan : fStringScan .outer 0 l.input with
  | none => exact ⟨none, l, rfl, h, rfl, fun p hp => by cases hp⟩
  | some e =>
    rw [hscan] at hstop hascii
    have hsuffix : ∀ n, l.input.drop n <:+ l.input := fun n => List.drop_suffix n _
    cases e with
    | curly i =>
      obtain ⟨-, hle⟩ := hstop
      have hbump := bump_ascii (l := l) (i := i - 1) (by omega) hascii
      simp only [hbump, bind, Option.bind]
      refine ⟨_, _, rfl, h.cut (hsuffix _), rfl, ?_⟩
      rintro p hp
      obtain rfl := Option.some.inj hp
      exact h.cutSpan_ok (hsuffix _)
    | quote i =>
      obtain ⟨-, hget⟩ := hstop
      have hlt : i < l.input.length := (List.getElem?_eq_some_iff.mp hget).1
      have hbump := bump_ascii (l := l) (i := i) (by omega) hascii
      have hdrop : l.input.drop i = '"' :: l.input.drop (i + 1) := by
        rw [List.drop_eq_getElem_cons hlt]
        congr 1
        exact (List.getElem?_eq_some_iff.mp hget).2
      have hbump₂ := bump_ascii (l := { l with input := l.input.drop i }) (i := 1)
        (by simp [hdrop]) (by
          intro c hc
          rw [hdrop] at hc
          have hcq : c = '"' := by simpa using hc
          rw [hcq]
          rfl)
      simp only [hbump, hbump₂, bind, Option.bind]
      refine ⟨_, _, rfl, (h.cut (hsuffix _)).cut (List.drop_suffix _ _), rfl, ?_⟩
      rintro p hp
      obtain rfl := Option.some.inj hp
      exact h.cutSpan_ok (hsuffix _)

/-! ### Whole runs -/

/-- The next `n` tokens start with ASCII characters. -/
def FillAscii (u : Unicode) : ℕ → Lexer → Prop
  | 0, _ => True
  | n + 1, l => FirstAscii l ∧
    ∀ t l', nextInner u l = some (some t, l') → FillAscii u n { l' with peeked := l'.peeked ++ [t] }

/-- Where a call lexes tokens, they start with ASCII characters, and where it lexes a part
of an f-string, that is ASCII. -/
def StepAscii (u : Unicode) (l : Lexer) : Op → Prop
  | .skipShebang => True
  | .next => l.peeked = [] → FirstAscii l
  | .peek => l.peeked = [] → FirstAscii l
  | .peekMany n => FillAscii u (n - l.peeked.length) l
  | .fStringPart => PartAscii l

/-- Every call that the parser can make in the run is such a one. -/
def AsciiRun (u : Unicode) (mode : Mode) (l : Lexer) : List Op → Prop
  | [] => True
  | op :: ops => mode.allows op → StepAscii u l op ∧
    ∀ out l', step u l op = some (out, l') → AsciiRun u (.after op out) l' ops

def Out.spans : Out → List Span
  | .token (some t) => [t.2]
  | .peeked (some t) => [t.2]
  | .part (some p) => [p.2]
  | _ => []

/-- No call that the parser can make in the run panics, and all spans are good. -/
def SafeRun (u : Unicode) (text : Text) (mode : Mode) (l : Lexer) : List Op → Prop
  | [] => True
  | op :: ops => mode.allows op → ∃ out l', step u l op = some (out, l') ∧
    (∀ s ∈ out.spans, SpanOk text s) ∧ SafeRun u text (.after op out) l' ops

/-- What holds between two calls: three tokens are only peeked right after a lookahead. -/
structure Inv (text : Text) (mode : Mode) (l : Lexer) : Prop where
  within : Within text l
  peeked_ok : ∀ t ∈ l.peeked, SpanOk text t.2
  length_le : l.peeked.length ≤ if mode = .mustNext then 3 else 2

theorem fill_ok {n : ℕ} (h : Within text l) (hpeeked : ∀ t ∈ l.peeked, SpanOk text t.2)
    (hascii : FillAscii u n l) :
    ∃ b l', fill u n l = some (b, l') ∧ Within text l' ∧ (∀ t ∈ l'.peeked, SpanOk text t.2) ∧
      l'.peeked.length ≤ l.peeked.length + n := by
  induction n generalizing l with
  | zero => exact ⟨true, l, rfl, h, hpeeked, le_rfl⟩
  | succ n ih =>
    obtain ⟨hfirst, hrest⟩ := hascii
    obtain ⟨r, l₁, hnext, hwithin, hsame, hspan⟩ := nextInner_ok (u := u) h hfirst
    simp only [fill, hnext, bind, Option.bind]
    cases r with
    | none =>
      refine ⟨false, l₁, rfl, hwithin, hsame ▸ hpeeked, ?_⟩
      rw [hsame]
      exact Nat.le_add_right _ _
    | some t =>
      have hpeeked₁ : ∀ x ∈ l₁.peeked ++ [t], SpanOk text x.2 := by
        intro x hx
        rcases List.mem_append.mp hx with hx | hx
        · exact hpeeked x (hsame ▸ hx)
        · exact List.mem_singleton.mp hx ▸ hspan t rfl
      obtain ⟨b, l', hfill, hw', hp', hlen⟩ :=
        ih (l := { l₁ with peeked := l₁.peeked ++ [t] }) ⟨hwithin.length_eq, hwithin.suffix⟩
          hpeeked₁ (hrest t l₁ hnext)
      refine ⟨b, l', hfill, hw', hp', ?_⟩
      have hsame_len := congrArg List.length hsame
      simp only [List.length_append, List.length_singleton] at hlen
      omega

theorem mode_after_next (t : Option Lexed) : Mode.after .next (.token t) ≠ .mustNext := by
  cases t with
  | none => simp [Mode.after]
  | some t =>
    simp only [Mode.after]
    split_ifs <;> simp

theorem mode_after_peek (t : Option Lexed) : Mode.after .peek (.peeked t) ≠ .mustNext := by
  unfold Mode.after
  split <;> simp_all

theorem step_ok {mode : Mode} {op : Op} (h : Inv text mode l) (hallow : mode.allows op = true)
    (hascii : StepAscii u l op) :
    ∃ out l', step u l op = some (out, l') ∧ (∀ s ∈ out.spans, SpanOk text s) ∧
      Inv text (.after op out) l' := by
  have hlen := h.length_le
  cases op with
  | skipShebang =>
    have hmode : mode ≠ .mustNext := by
      rintro rfl
      cases hallow
    rw [if_neg hmode] at hlen
    have hcut : ∃ l', skipShebang l = some l' ∧ Within text l' ∧ l'.peeked = l.peeked := by
      have hstr := eatStr_suffix "#!" l.input
      unfold skipShebang
      split
      · next c tail heq =>
        rw [heq] at hstr
        split_ifs
        · obtain ⟨a, -, hbump⟩ := bumpTo_eq ((eatUntil_suffix '\n' (c :: tail)).trans hstr)
          rw [hbump]
          exact ⟨_, rfl, h.within.cut ((eatUntil_suffix _ _).trans hstr), rfl⟩
        · exact ⟨l, rfl, h.within, rfl⟩
      · exact ⟨l, rfl, h.within, rfl⟩
    obtain ⟨l', hskip, hwithin, hpeeked⟩ := hcut
    refine ⟨.unit, l', by simp [step, hskip], by simp [Out.spans], hwithin,
      hpeeked ▸ h.peeked_ok, ?_⟩
    rw [hpeeked]
    exact hlen
  | next =>
    cases hpeeked : l.peeked with
    | cons t peeked =>
      have hok := h.peeked_ok
      rw [hpeeked] at hok hlen
      obtain ⟨ht, hrest⟩ := List.forall_mem_cons.mp hok
      refine ⟨.token (some t), { l with peeked := peeked }, by simp [step, next, hpeeked],
        by simpa [Out.spans] using ht, ⟨h.within.length_eq, h.within.suffix⟩, hrest, ?_⟩
      rw [if_neg (mode_after_next _)]
      simp only [List.length_cons] at hlen
      split_ifs at hlen <;> simp only <;> omega
    | nil =>
      obtain ⟨r, l', hnext, hwithin, hsame, hspan⟩ := nextInner_ok (u := u) h.within
        (hascii hpeeked)
      rw [hpeeked] at hsame
      refine ⟨.token r, l', by simp [step, next, hpeeked, hnext], ?_, hwithin,
        by simp [hsame], ?_⟩
      · cases r with
        | none => simp [Out.spans]
        | some t => simpa [Out.spans] using hspan t rfl
      · simp [hsame]
  | peek =>
    have hmode : mode ≠ .mustNext := by
      rintro rfl
      cases hallow
    rw [if_neg hmode] at hlen
    cases hpeeked : l.peeked with
    | cons t peeked =>
      refine ⟨.peeked (some t), l, by simp [step, peek, hpeeked], ?_, h.within, h.peeked_ok, ?_⟩
      · simpa [Out.spans] using h.peeked_ok t (by simp [hpeeked])
      · rwa [if_neg (mode_after_peek _)]
    | nil =>
      obtain ⟨r, l', hnext, hwithin, hsame, hspan⟩ := nextInner_ok (u := u) h.within
        (hascii hpeeked)
      rw [hpeeked] at hsame
      cases r with
      | none =>
        refine ⟨.peeked none, l', by simp [step, peek, hpeeked, hnext], by simp [Out.spans],
          hwithin, by simp [hsame], ?_⟩
        simp [hsame]
      | some t =>
        refine ⟨.peeked (some t), { l' with peeked := [t] }, by simp [step, peek, hpeeked, hnext],
          by simpa [Out.spans] using hspan t rfl, ⟨hwithin.length_eq, hwithin.suffix⟩,
          by simpa using hspan t rfl, ?_⟩
        rw [if_neg (mode_after_peek _)]
        simp
  | peekMany n =>
    have hn : n = 2 ∨ n = 3 := by
      cases mode <;> simp_all [Mode.allows]
    have hmode : mode ≠ .mustNext := by
      rintro rfl
      cases hallow
    rw [if_neg hmode] at hlen
    obtain ⟨b, l', hfill, hwithin, hpeeked, hle⟩ := fill_ok h.within h.peeked_ok hascii
    refine ⟨.many (if b then l'.peeked.mapM (·.1) else none), l', ?_, by simp [Out.spans], hwithin,
      hpeeked, ?_⟩
    · have hnot : ¬ n < l.peeked.length := by omega
      simp only [step, peekMany, if_neg hnot, hfill]
      rfl
    · rcases hn with rfl | rfl
      · have : l'.peeked.length ≤ 2 := by omega
        split_ifs <;> omega
      · have hafter : ∀ out, Mode.after (.peekMany 3) out = .mustNext := by
          intro out
          simp [Mode.after]
        rw [if_pos (hafter _)]
        omega
  | fStringPart =>
    have hmode : mode ≠ .mustNext := by
      rintro rfl
      cases hallow
    rw [if_neg hmode] at hlen
    obtain ⟨r, l', hpart, hwithin, hsame, hspan⟩ := fStringPart_ok h.within hascii
    refine ⟨.part r, l', by simp [step, hpart], ?_, hwithin, hsame ▸ h.peeked_ok, ?_⟩
    · cases r with
      | none => simp [Out.spans]
      | some p => simpa [Out.spans] using hspan p rfl
    · rw [hsame]
      exact hlen

theorem run_ok {mode : Mode} {ops : List Op} (h : Inv text mode l)
    (hascii : AsciiRun u mode l ops) : SafeRun u text mode l ops := by
  induction ops generalizing mode l with
  | nil => trivial
  | cons op ops ih =>
    intro hallow
    obtain ⟨hstep, hrest⟩ := hascii hallow
    obtain ⟨out, l', heq, hspans, hinv⟩ := step_ok h hallow hstep
    exact ⟨out, l', heq, hspans, ih hinv (hrest out l' heq)⟩

/-- No call of the lexer panics in a run of calls in which every token starts with an ASCII
character and every part of an f-string is ASCII, and all spans can slice the source. -/
theorem lexer_safe (u : Unicode) (text : Text) (ops : List Op)
    (h : AsciiRun u .start (Lexer.new text) ops) :
    SafeRun u text .start (Lexer.new text) ops :=
  run_ok ⟨⟨rfl, List.suffix_refl _⟩, fun _ ht => absurd ht List.not_mem_nil, Nat.zero_le _⟩ h

/-- Letters, as far as these examples have any. -/
def letters : Unicode where
  isXidStart c := c.isAlpha || c = 'é'
  isXidContinue c := c.isAlphanum || c = '_' || c = 'é'

theorem lexer_safe_ascii :
    SafeRun letters ['a', 'é'] .start (Lexer.new ['a', 'é']) [.next] :=
  lexer_safe letters ['a', 'é'] [.next] fun _ =>
    ⟨fun _ c tail h => by
      obtain ⟨rfl, -⟩ := List.cons.inj (h : ['a', 'é'] = c :: tail)
      rfl, fun _ _ _ => trivial⟩

/-- The identifier `é` makes the lexer panic. -/
theorem lexer_panics_on_letter :
    ¬ SafeRun letters ['é'] .start (Lexer.new ['é']) [.next] := by
  intro h
  obtain ⟨out, l', hstep, -⟩ := h rfl
  have hpanic : step letters (Lexer.new ['é']) .next = none := by decide
  rw [hpanic] at hstep
  cases hstep

end Roto.Parser
