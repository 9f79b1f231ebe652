import RotoCompiler.Parser.FStrings

/-!
# Identifiers (parser/lexer.rs, keyword_or_ident)

The sub-lexer of identifiers comes last: addresses, AS numbers and the start of an f-string
can begin with the same characters. Which of them breaks is decided before the end of the
identifier, also when more text follows that is no part of it.
-/

namespace Roto.Parser
open Lib
open String (utf8Len)

/-- What is documented of `unicode_ident`. -/
structure Unicode.Documented (u : Unicode) : Prop where
  start_ascii : ∀ c, Text.IsAscii c → u.isXidStart c = c.isAlpha
  continue_ascii : ∀ c, Text.IsAscii c → u.isXidContinue c = (c.isAlphanum || c = '_')
  continue_space : ∀ c, isWhitespace c = true → u.isXidContinue c = false

/-- The text is, as a whole, lexed as one identifier. -/
def IsIdentifier (u : Unicode) (s : Text) : Prop :=
  next u (Lexer.new s) =
    some (some (some (.ident s), ⟨0, utf8Len s⟩), ⟨[], utf8Len s, []⟩)

instance (u : Unicode) (s : Text) : Decidable (IsIdentifier u s) :=
  inferInstanceAs (Decidable (_ = _))

section
variable {u : Unicode} {l l' : Lexer} {s x r : Text} {n : ℕ} {span : Span}

/-! ### Text that follows a token -/

/-- White space, a comment or nothing comes next. -/
def Ends (r : Text) : Prop := ∀ c, r.head? = some c → isWhitespace c = true ∨ c = '/'

theorem ends_of_skipped (h : skipLoop false r = []) : Ends r := by
  intro c hc
  cases r with
  | nil => cases hc
  | cons d t =>
    obtain rfl := Option.some.inj hc
    simp only [skipLoop, Bool.false_eq_true, if_false] at h
    split_ifs at h with hspace hslash
    · exact .inl hspace
    · exact .inr hslash.1

/-- No white space has such a code. -/
theorem isWhitespace_false {c : Char} (h : 0x21 ≤ c.toNat) (h' : c.toNat ≤ 0x7F) :
    isWhitespace c = false := by
  unfold isWhitespace
  generalize c.toNat = n at h h'
  simp only [List.mem_cons, List.not_mem_nil, or_false, Bool.or_eq_false_iff,
    Bool.and_eq_false_iff, decide_eq_false_iff_not]
  omega

theorem hexdigit_range {c : Char} (h : isAsciiHexdigit c = true) :
    0x30 ≤ c.toNat ∧ c.toNat ≤ 0x66 := by
  have hrange : (('0' ≤ c ∧ c ≤ '9') ∨ ('a' ≤ c ∧ c ≤ 'f')) ∨ ('A' ≤ c ∧ c ≤ 'F') := by
    simpa [isAsciiHexdigit, isAsciiDigit] using h
  simp only [Char.le_def, UInt32.le_iff_toNat_le] at hrange
  have h0 : '0'.val.toNat = 0x30 := rfl
  have h9 : '9'.val.toNat = 0x39 := rfl
  have ha : 'a'.val.toNat = 0x61 := rfl
  have hf : 'f'.val.toNat = 0x66 := rfl
  have hA : 'A'.val.toNat = 0x41 := rfl
  have hF : 'F'.val.toNat = 0x46 := rfl
  show 0x30 ≤ c.val.toNat ∧ c.val.toNat ≤ 0x66
  omega

theorem Ends.ne (h : Ends r) {c : Char} (hc : 0x21 ≤ c.toNat) (hc' : c.toNat ≤ 0x7F)
    (hslash : c ≠ '/') : r.head? ≠ some c := by
  intro hhead
  rcases h c hhead with hspace | rfl
  · rw [isWhitespace_false hc hc'] at hspace
    cases hspace
  · exact hslash rfl

theorem Ends.not_hexdigit (h : Ends r) {c : Char} (hc : r.head? = some c) :
    isAsciiHexdigit c = false := by
  by_contra hhex
  rw [Bool.not_eq_false] at hhex
  obtain ⟨hle, hge⟩ := hexdigit_range hhex
  refine h.ne (by omega) (by omega) ?_ hc
  rintro rfl
  revert hhex
  decide

theorem Ends.not_digit (h : Ends r) {c : Char} (hc : r.head? = some c) :
    isAsciiDigit c = false := by
  have hhex := h.not_hexdigit hc
  simp only [isAsciiHexdigit, Bool.or_eq_false_iff] at hhex
  exact hhex.1.1

theorem Ends.not_continue (hu : u.Documented) (h : Ends r) {c : Char} (hc : r.head? = some c) :
    u.isXidContinue c = false := by
  rcases h c hc with hspace | rfl
  · exact hu.continue_space c hspace
  · exact hu.continue_ascii '/' rfl

/-! ### What the sub-lexers see of it -/

theorem eatWhile_append {p : Char → Bool} (hp : ∀ c, r.head? = some c → p c = false) (s : Text) :
    eatWhile p (s ++ r) = ((eatWhile p s).1, (eatWhile p s).2 ++ r) := by
  have hdrop : (s ++ r).dropWhile p = s.dropWhile p ++ r := by
    rw [List.dropWhile_append]
    split_ifs with hempty
    · rw [List.isEmpty_iff.mp hempty]
      cases r with
      | nil => rfl
      | cons c t => rw [List.dropWhile_cons, hp c rfl]; rfl
    · rfl
  simp only [eatWhile, hdrop, List.length_append, ne_eq, Nat.add_right_cancel_iff]

theorem eatChar_append {c : Char} (hc : r.head? ≠ some c) (s : Text) :
    eatChar c (s ++ r) = ((eatChar c s).1, (eatChar c s).2 ++ r) := by
  cases s with
  | nil =>
    cases r with
    | nil => rfl
    | cons d t =>
      have hne : d ≠ c := fun h => hc (congrArg some h)
      simp only [List.nil_append, eatChar, if_neg hne]
  | cons d s =>
    simp only [List.cons_append, eatChar]
    split_ifs <;> rfl

theorem eatGroups_append {digit : Char → Bool} {sep : Char}
    (hdigit : ∀ c, r.head? = some c → digit c = false) (hsep : r.head? ≠ some sep)
    (need : Bool) (count : ℕ) (s : Text) :
    eatGroups digit need sep count (s ++ r) =
      (eatGroups digit need sep count s).map fun t => t ++ r := by
  induction count generalizing s with
  | zero => rfl
  | succ count ih =>
    simp only [eatGroups, eatWhile_append hdigit, eatChar_append hsep]
    split_ifs
    · rfl
    · rfl
    · exact ih _

/-- Two characters at the start, of which the second does not follow a shorter text. -/
theorem eatStr_append {w : String} {a b : Char} (hw : w.toList = [a, b])
    (hb : r.head? ≠ some b) (c : Char) (s : Text) :
    eatStr w (c :: s ++ r) = ((eatStr w (c :: s)).1, (eatStr w (c :: s)).2 ++ r) := by
  cases s with
  | nil =>
    cases r with
    | nil => rw [List.append_nil, List.append_nil]
    | cons d t =>
      have hne : (b == d) = false := by
        rw [beq_eq_false_iff_ne]
        exact fun h => hb (congrArg some h.symm)
      simp [eatStr, hw, List.isPrefixOf, hne]
  | cons d s =>
    simp only [eatStr, hw, List.cons_append, List.isPrefixOf]
    split_ifs <;> rfl

/-! ### The sub-lexer that breaks -/

/-- A text at which no sub-lexer before that of identifiers breaks. -/
structure PastOthers (s : Text) : Prop where
  ipv6 : eatGroups isAsciiHexdigit false ':' 2 s = none
  as : (eatStr "AS" s).1 = true → (eatWhile isAsciiDigit (eatStr "AS" s).2).1 = false
  fString : (eatStr "f\"" s).1 = false

/-- The text `c :: cs` is taken for an identifier where `r` follows. -/
structure WordBefore (u : Unicode) (c : Char) (cs r : Text) : Prop where
  ascii : Text.IsAscii c
  start : u.isXidStart c = true ∨ c = '_'
  others : PastOthers (c :: cs ++ r)
  stop : (eatWhile u.isXidContinue (cs ++ r)).2 = r
  ident : keywordToken (c :: cs) = .ident (c :: cs)

def Token.isIdent : Token → Bool
  | .ident _ => true
  | _ => false

theorem brkTo_ne_cont {tail : Text} {token : Text → Token} : brkTo l tail token ≠ some .cont := by
  unfold brkTo
  cases l.bumpTo tail with
  | none => exact fun h => nomatch h
  | some a => exact fun h => nomatch h

theorem number_not_ident : Breaks (fun t => t.isIdent = false) (number u l) := by
  intro tok span l' h
  unfold number at h
  split at h
  · cases h
  · split_ifs at h
    · cases h
    dsimp only at h
    generalize (floatPart u (eatWhile isRotoDigit l.input).2) = part at h
    generalize (eatWhile (fun c => u.isXidContinue c || c = '_') part.2).2 = tail at h
    cases hbump : l.bumpTo tail with
    | none => simp [hbump] at h
    | some a =>
      simp only [hbump, Option.bind_eq_bind, Option.bind_some] at h
      cases hsplit : Text.splitAt a.1.1 (utf8Len l.input - utf8Len part.2) with
      | none => simp [hsplit] at h
      | some b =>
        simp only [hsplit, Option.bind_some, Option.pure_def, Option.some.injEq,
          Flow.brk.injEq] at h
        obtain ⟨rfl, -, -⟩ := h
        split_ifs <;> rfl

theorem quoted_not_ident {quote : Char} {token : Text → Token}
    (ht : ∀ t, (token t).isIdent = false) :
    Breaks (fun t => t.isIdent = false) (quoted quote token l) := by
  unfold quoted
  dsimp only
  split_ifs
  · exact breaks_cont
  · exact breaks_cont
  · exact breaks_brkTo ht

/-- All sub-lexers but the last one. -/
theorem others_not_ident : ∀ f ∈ (subLexers u).dropLast,
    Breaks (fun t => t.isIdent = false) (f l) := by
  have htwo : ∀ e ∈ twoChars, e.2.2.isIdent = false := by decide
  have hone : ∀ e ∈ oneChars, e.2.isIdent = false := by decide
  have hipv6 : Breaks (fun t => t.isIdent = false) (ipv6 l) := by
    unfold ipv6
    split
    · exact breaks_cont
    · exact breaks_brkTo fun _ => rfl
  have hipv4 : Breaks (fun t => t.isIdent = false) (ipv4 l) := by
    unfold ipv4
    split
    · exact breaks_cont
    · exact breaks_brkTo fun _ => rfl
  have has : Breaks (fun t => t.isIdent = false) (asNumber l) := by
    unfold asNumber
    dsimp only
    split_ifs
    · exact breaks_cont
    · exact breaks_cont
    · exact breaks_brkTo fun _ => rfl
  have hhex : Breaks (fun t => t.isIdent = false) (hexNumber l) := by
    unfold hexNumber
    dsimp only
    split_ifs
    · exact breaks_cont
    · exact breaks_brkTo fun _ => rfl
  have hstart : Breaks (fun t => t.isIdent = false) (fString l) := by
    unfold fString
    dsimp only
    split_ifs
    · exact breaks_cont
    · exact breaks_brkTo fun _ => rfl
  simp only [subLexers, List.dropLast, List.forall_mem_cons, List.not_mem_nil, false_implies,
    implies_true, and_true]
  exact ⟨hipv6, hipv4, twoCharPunctuation_breaks htwo, oneCharPunctuation_breaks hone, has, hhex,
    number_not_ident, hstart, quoted_not_ident fun _ => rfl, quoted_not_ident fun _ => rfl⟩

/-- A break with an identifier is one of the last sub-lexer, and all others went on. -/
theorem firstOf_ident {f : SubLexer} {fs : List SubLexer}
    (hfs : ∀ g ∈ fs, Breaks (fun t => t.isIdent = false) (g l))
    (h : firstOf (fs ++ [f]) l = some (.brk (.ident x) span l')) :
    (∀ g ∈ fs, g l = some .cont) ∧ f l = some (.brk (.ident x) span l') := by
  induction fs with
  | nil =>
    refine ⟨fun g hg => absurd hg List.not_mem_nil, ?_⟩
    simp only [List.nil_append, firstOf] at h
    split at h
    · cases h
    · exact h
  | cons g fs ih =>
    obtain ⟨hg, hfs⟩ := List.forall_mem_cons.mp hfs
    simp only [List.cons_append, firstOf] at h
    split at h
    · next hcont =>
      obtain ⟨hall, hf⟩ := ih hfs h
      exact ⟨List.forall_mem_cons.mpr ⟨hcont, hall⟩, hf⟩
    · cases hg _ _ _ h

theorem firstOf_past {f : SubLexer} {fs : List SubLexer} (hfs : ∀ g ∈ fs, g l = some .cont)
    {r : Option Flow} (hf : f l = r) (hr : r ≠ some .cont) : firstOf (fs ++ [f]) l = r := by
  induction fs with
  | nil =>
    simp only [List.nil_append, firstOf, hf]
  | cons g fs ih =>
    obtain ⟨hg, hfs⟩ := List.forall_mem_cons.mp hfs
    simp only [List.cons_append, firstOf, hg]
    exact ih hfs

/-! ### Characters that start an identifier -/

/-- An ASCII letter or an underscore. -/
def StartsWord (c : Char) : Prop := Text.IsAscii c ∧ (c.isAlpha = true ∨ c = '_')

theorem WordBefore.startsWord {c : Char} {cs : Text} (hu : u.Documented)
    (h : WordBefore u c cs r) : StartsWord c := by
  refine ⟨h.ascii, ?_⟩
  rw [← hu.start_ascii c h.ascii]
  exact h.start

theorem byte_injective {c d : Char} (hc : Text.IsAscii c) (hd : d.val.toNat < 128)
    (h : d.val.toUInt8 = c.val.toUInt8) : d = c := by
  have hlt := Char.utf8Size_eq_one_iff.mp hc
  have hle : c.val.toNat ≤ 127 := hlt
  have hnat := congrArg UInt8.toNat h
  rw [UInt32.toNat_toUInt8, UInt32.toNat_toUInt8] at hnat
  refine Char.ext (UInt32.toNat_inj.mp ?_)
  omega

theorem StartsWord.ne {c d : Char} (h : StartsWord c) (hd : d.isAlpha = false ∧ d ≠ '_') :
    c ≠ d := by
  rintro rfl
  rcases h.2 with halpha | hunder
  · rw [hd.1] at halpha
    cases halpha
  · exact hd.2 hunder

theorem isAlpha_eq (c : Char) : c.isAlpha =
    (decide ('A'.val ≤ c.val ∧ c.val ≤ 'Z'.val) ||
      decide ('a'.val ≤ c.val) && decide (c.val ≤ 'z'.val)) :=
  rfl

theorem StartsWord.range {c : Char} (h : StartsWord c) : 0x41 ≤ c.toNat ∧ c.toNat ≤ 0x7F := by
  have hcode : c.toNat = c.val.toNat := rfl
  have hA : 'A'.val.toNat = 0x41 := rfl
  have ha : 'a'.val.toNat = 0x61 := rfl
  have hle : c.val.toNat ≤ 127 := Char.utf8Size_eq_one_iff.mp h.1
  rcases h.2 with halpha | rfl
  · simp only [isAlpha_eq, Bool.or_eq_true, Bool.and_eq_true,
      decide_eq_true_eq, UInt32.le_iff_toNat_le] at halpha
    omega
  · decide

theorem StartsWord.not_digit {c : Char} (h : StartsWord c) : isAsciiDigit c = false := by
  have hcode : c.toNat = c.val.toNat := rfl
  have hle := h.range
  by_contra hdigit
  rw [Bool.not_eq_false] at hdigit
  have hrange : '0' ≤ c ∧ c ≤ '9' := by simpa [isAsciiDigit] using hdigit
  simp only [Char.le_def, UInt32.le_iff_toNat_le] at hrange
  have h9 : '9'.val.toNat = 0x39 := rfl
  omega

theorem StartsWord.punctuation {c : Char} (h : StartsWord c) (cs : Text) (n : ℕ) :
    twoCharPunctuation ⟨c :: cs, n, []⟩ = some .cont ∧
      oneCharPunctuation ⟨c :: cs, n, []⟩ = some .cont := by
  have htwo : ∀ e ∈ twoChars, e.1.val.toNat < 128 ∧ e.1.isAlpha = false ∧ e.1 ≠ '_' := by decide
  have hone : ∀ e ∈ oneChars, e.1.val.toNat < 128 ∧ e.1.isAlpha = false ∧ e.1 ≠ '_' := by decide
  have hbytes := Text.bytes_cons_of_ascii h.1 cs
  constructor
  · unfold twoCharPunctuation
    dsimp only
    rw [hbytes]
    cases Text.bytes cs with
    | nil => rfl
    | cons y t =>
      have hfind : twoChars.find? (fun e => e.1.val.toUInt8 = c.val.toUInt8 ∧
          e.2.1.val.toUInt8 = y) = none := by
        rw [List.find?_eq_none]
        intro e he heq
        obtain ⟨hlt, hother⟩ := htwo e he
        have heq' := (of_decide_eq_true heq).1
        exact h.ne hother (byte_injective h.1 hlt heq').symm
      simp only [hfind]
  · unfold oneCharPunctuation
    dsimp only
    rw [hbytes]
    have hfind : oneChars.find? (fun e => e.1.val.toUInt8 = c.val.toUInt8) = none := by
      rw [List.find?_eq_none]
      intro e he heq
      obtain ⟨hlt, hother⟩ := hone e he
      exact h.ne hother (byte_injective h.1 hlt (of_decide_eq_true heq)).symm
    simp only [hfind]

/-! ### Lexing an identifier -/

theorem others_cont {c : Char} {cs : Text} (hc : StartsWord c) (h : PastOthers (c :: cs)) :
    ∀ f ∈ (subLexers u).dropLast, f ⟨c :: cs, n, []⟩ = some .cont := by
  obtain ⟨htwo, hone⟩ := hc.punctuation cs n
  have hipv6 : ipv6 ⟨c :: cs, n, []⟩ = some .cont := by
    unfold ipv6
    simp only [h.ipv6]
  have has : asNumber ⟨c :: cs, n, []⟩ = some .cont := by
    unfold asNumber
    cases hate : (eatStr "AS" (c :: cs)).1 with
    | false => simp only [hate, Bool.not_false, if_true]
    | true => simp [hate, h.as hate]
  have hhex : hexNumber ⟨c :: cs, n, []⟩ = some .cont := by
    have hne := hc.ne (by decide : '0'.isAlpha = false ∧ '0' ≠ '_')
    have hate : (eatStr "0x" (c :: cs)).1 = false := by
      simp [eatStr, List.isPrefixOf, hne.symm]
    unfold hexNumber
    simp [hate]
  have hnumber : number u ⟨c :: cs, n, []⟩ = some .cont := by
    unfold number
    simp [hc.not_digit]
  have hstart : fString ⟨c :: cs, n, []⟩ = some .cont := by
    unfold fString
    simp [h.fString]
  have hquoted : ∀ quote token, quote.isAlpha = false ∧ quote ≠ '_' →
      quoted quote token ⟨c :: cs, n, []⟩ = some .cont := by
    intro quote token hquote
    have hne := hc.ne hquote
    unfold quoted
    simp [eatChar, hne]
  simp only [subLexers, List.dropLast, List.forall_mem_cons, List.not_mem_nil, false_implies,
    implies_true, and_true]
  exact ⟨hipv6, ipv4_cont hc.not_digit cs n, htwo, hone, has, hhex, hnumber, hstart,
    hquoted _ _ (by decide), hquoted _ _ (by decide)⟩

theorem past_of_cont (h : ∀ f ∈ (subLexers u).dropLast, f ⟨s, n, []⟩ = some .cont) :
    PastOthers s := by
  simp only [subLexers, List.dropLast, List.forall_mem_cons, List.not_mem_nil, false_implies,
    implies_true, and_true] at h
  obtain ⟨hipv6, -, -, -, has, -, -, hstart, -, -⟩ := h
  constructor
  · unfold ipv6 at hipv6
    split at hipv6
    · next hnone => exact hnone
    · exact absurd hipv6 brkTo_ne_cont
  · intro hate
    by_contra hdigits
    rw [Bool.not_eq_false] at hdigits
    unfold asNumber at has
    simp only [hate, hdigits, Bool.not_true, Bool.false_eq_true, if_false] at has
    exact brkTo_ne_cont has
  · by_contra hate
    rw [Bool.not_eq_false] at hate
    unfold fString at hstart
    simp only [hate, Bool.not_true, Bool.false_eq_true, if_false] at hstart
    exact brkTo_ne_cont hstart

theorem subLexers_last : subLexers u = (subLexers u).dropLast ++ [keywordOrIdent u] := rfl

theorem splitAt_wide {c : Char} (h : ¬ Text.IsAscii c) (t : Text) :
    Text.splitAt (c :: t) 1 = none := by
  have hpos := Char.utf8Size_pos c
  have hwide : ¬ c.utf8Size ≤ 1 := by
    intro hle
    exact h (show c.utf8Size = 1 by omega)
  rw [Text.splitAt, if_neg hwide]

/-- The sub-lexer of identifiers at a character that starts one. -/
theorem keywordOrIdent_eq {c : Char} (hc : Text.IsAscii c)
    (hstart : u.isXidStart c = true ∨ c = '_') (t : Text) (n : ℕ) :
    keywordOrIdent u ⟨c :: t, n, []⟩ =
      some (.brk (keywordToken (c :: t.takeWhile u.isXidContinue))
        (cutSpan ⟨c :: t, n, []⟩ (eatWhile u.isXidContinue t).2)
        ⟨(eatWhile u.isXidContinue t).2, n, []⟩) := by
  have hnot : (!(u.isXidStart c || decide (c = '_'))) = false := by
    rw [Bool.not_eq_false', Bool.or_eq_true, decide_eq_true_eq]
    exact hstart
  have hsplit := Text.splitAt_ascii hc t
  have hcut : (c :: t.takeWhile u.isXidContinue) ++ (eatWhile u.isXidContinue t).2 = c :: t :=
    congrArg (List.cons c) List.takeWhile_append_dropWhile
  obtain ⟨a, ha, hbump⟩ := bumpTo_eq (l := ⟨c :: t, n, []⟩) ⟨_, hcut⟩
  have haeq : a = c :: t.takeWhile u.isXidContinue := List.append_cancel_right (ha.trans hcut.symm)
  unfold keywordOrIdent
  simp only [hnot, Bool.false_eq_true, if_false, hsplit, bind, Option.bind, brkTo, hbump, haeq]
  rfl

theorem keywordToken_ident {w : Text} (h : keywordToken w = .ident x) : x = w := by
  have hall : ∀ e ∈ keywords, e.2.isIdent = false := by decide
  unfold keywordToken at h
  split at h
  · next k tok hfind =>
    have hnot := hall _ (List.mem_of_find?_eq_some hfind)
    rw [h] at hnot
    cases hnot
  · cases h
    rfl

/-- The sub-lexers break with an identifier where one stands, and cut it off. -/
theorem firstOf_ident_iff (hu : u.Documented) :
    firstOf (subLexers u) ⟨s, n, []⟩ = some (.brk (.ident x) span l) ↔
      ∃ c cs r, x = c :: cs ∧ s = x ++ r ∧ WordBefore u c cs r ∧
        span = cutSpan ⟨s, n, []⟩ r ∧ l = ⟨r, n, []⟩ := by
  constructor
  · intro h
    rw [subLexers_last] at h
    obtain ⟨hcont, hlast⟩ := firstOf_ident others_not_ident h
    have hpast := past_of_cont hcont
    cases s with
    | nil => cases hlast
    | cons c t =>
      have hstart : u.isXidStart c = true ∨ c = '_' := by
        by_contra hnot
        have hfalse : (!(u.isXidStart c || decide (c = '_'))) = true := by
          simpa using hnot
        unfold keywordOrIdent at hlast
        simp only [hfalse, if_true] at hlast
        cases hlast
      have hascii : Text.IsAscii c := by
        by_contra hwide
        have hnot : (!(u.isXidStart c || decide (c = '_'))) = false := by
          rw [Bool.not_eq_false', Bool.or_eq_true, decide_eq_true_eq]
          exact hstart
        unfold keywordOrIdent at hlast
        simp only [hnot, Bool.false_eq_true, if_false, splitAt_wide hwide, bind,
          Option.bind] at hlast
        cases hlast
      rw [keywordOrIdent_eq hascii hstart] at hlast
      simp only [Option.some.injEq, Flow.brk.injEq] at hlast
      obtain ⟨htok, rfl, rfl⟩ := hlast
      have hcut : t.takeWhile u.isXidContinue ++ (eatWhile u.isXidContinue t).2 = t :=
        List.takeWhile_append_dropWhile
      obtain rfl := keywordToken_ident htok
      refine ⟨c, _, _, rfl, (congrArg (List.cons c) hcut).symm, ?_, rfl, rfl⟩
      refine ⟨hascii, hstart, ?_, ?_, htok⟩
      · rw [List.cons_append, hcut]
        exact hpast
      · rw [hcut]
  · rintro ⟨c, cs, r, rfl, rfl, h, rfl, rfl⟩
    have hcont := others_cont (u := u) (n := n) (h.startsWord hu) h.others
    rw [subLexers_last]
    refine firstOf_past hcont ?_ fun h => nomatch h
    have hcut : (cs ++ r).takeWhile u.isXidContinue ++ r = cs ++ r := by
      have hsplit := List.takeWhile_append_dropWhile (p := u.isXidContinue) (l := cs ++ r)
      rwa [show (cs ++ r).dropWhile u.isXidContinue = r from h.stop] at hsplit
    have hcs := List.append_cancel_right hcut
    show keywordOrIdent u ⟨c :: (cs ++ r), n, []⟩ = _
    rw [keywordOrIdent_eq h.ascii h.start, h.stop, hcs, h.ident]
    rfl

/-- What comes after the end of an identifier does not matter. -/
theorem wordBefore_iff (hu : u.Documented) (hr : Ends r) {c : Char} {cs : Text} :
    WordBefore u c cs r ↔ WordBefore u c cs [] := by
  have hdigit := fun d => hr.not_digit (c := d)
  have hgroups := eatGroups_append (fun d => hr.not_hexdigit (c := d))
    (hr.ne (by decide : 0x21 ≤ ':'.toNat) (by decide) (by decide)) false 2 (c :: cs)
  have has := eatStr_append (r := r) (by rfl : "AS".toList = ['A', 'S'])
    (hr.ne (by decide) (by decide) (by decide)) c cs
  have hdigits := eatWhile_append hdigit (eatStr "AS" (c :: cs)).2
  have hquote := eatStr_append (r := r) (by rfl : "f\"".toList = ['f', '"'])
    (hr.ne (by decide) (by decide) (by decide)) c cs
  have hwhile := eatWhile_append (fun d => hr.not_continue hu (c := d)) cs
  have hothers : PastOthers (c :: cs ++ r) ↔ PastOthers (c :: cs) := by
    constructor
    · intro h
      have hipv6 := h.ipv6
      have hasn := h.as
      have hstart := h.fString
      rw [hgroups, Option.map_eq_none_iff] at hipv6
      rw [has, hdigits] at hasn
      rw [hquote] at hstart
      exact ⟨hipv6, hasn, hstart⟩
    · intro h
      refine ⟨?_, ?_, ?_⟩
      · rw [hgroups, h.ipv6]
        rfl
      · rw [has, hdigits]
        exact h.as
      · rw [hquote]
        exact h.fString
  have hstop : (eatWhile u.isXidContinue (cs ++ r)).2 = r ↔ (eatWhile u.isXidContinue cs).2 = [] := by
    rw [hwhile]
    exact List.append_left_eq_self
  constructor
  · intro h
    refine ⟨h.ascii, h.start, ?_, ?_, h.ident⟩
    · rw [List.append_nil]
      exact hothers.mp h.others
    · rw [List.append_nil]
      exact hstop.mp h.stop
  · intro h
    have hold := h.others
    have hend := h.stop
    rw [List.append_nil] at hold hend
    exact ⟨h.ascii, h.start, hothers.mpr hold, hstop.mpr hend, h.ident⟩

/-- The next token is an identifier when one stands after white space and comments. -/
theorem next_ident_iff (hu : u.Documented) :
    next u ⟨s, n, []⟩ = some (some (some (.ident x), span), l) ↔
      ∃ c cs r, x = c :: cs ∧ skipLoop false s = x ++ r ∧ WordBefore u c cs r ∧
        span = cutSpan ⟨x ++ r, n, []⟩ r ∧ l = ⟨r, n, []⟩ := by
  have hskip := skipWhitespace_eq ⟨s, n, []⟩
  have hfirst := @firstOf_ident_iff u l (skipLoop false s) x n span hu
  constructor
  · intro h
    change nextInner u _ = _ at h
    simp only [nextInner, hskip, bind, Option.bind] at h
    split_ifs at h
    · cases h
    cases hflow : firstOf (subLexers u) ⟨skipLoop false s, n, []⟩ with
    | none => simp [hflow] at h
    | some flow =>
      cases flow with
      | cont => simp [hflow] at h
      | brk tok sp m =>
        simp only [hflow] at h
        cases h
        obtain ⟨c, cs, r, hx, hs, hword, hspan, hl⟩ := hfirst.mp hflow
        rw [hs] at hspan
        exact ⟨c, cs, r, hx, hs, hword, hspan, hl⟩
  · rintro ⟨c, cs, r, hx, hs, hword, hspan, hl⟩
    have hflow := hfirst.mpr ⟨c, cs, r, hx, hs, hword, by rw [hs]; exact hspan, hl⟩
    have hempty : ¬ (skipLoop false s).isEmpty = true := by
      rw [hs, hx]
      exact fun h => by cases h
    show nextInner u _ = _
    simp only [nextInner, hskip, bind, Option.bind]
    rw [if_neg hempty, hflow]
    rfl

/-- There is no next token when only white space and comments are left. -/
theorem next_none_iff : (∃ l, next u ⟨r, n, []⟩ = some (none, l)) ↔ skipLoop false r = [] := by
  have hskip := skipWhitespace_eq ⟨r, n, []⟩
  constructor
  · rintro ⟨l, h⟩
    change nextInner u _ = _ at h
    simp only [nextInner, hskip, bind, Option.bind] at h
    split_ifs at h with hempty
    · exact List.isEmpty_iff.mp hempty
    cases hflow : firstOf (subLexers u) ⟨skipLoop false r, n, []⟩ with
    | none => simp [hflow] at h
    | some flow =>
      cases flow with
      | cont => simp [hflow] at h
      | brk tok sp m => simp [hflow] at h
  · intro h
    refine ⟨⟨[], n, []⟩, ?_⟩
    show nextInner u _ = _
    simp only [nextInner, hskip, bind, Option.bind, h]
    rfl

theorem skipLoop_word {c : Char} (hc : StartsWord c) (t : Text) :
    skipLoop false (c :: t) = c :: t := by
  obtain ⟨hle, hge⟩ := hc.range
  have hspace : ¬ isWhitespace c = true := by
    rw [isWhitespace_false (by omega) hge]
    exact Bool.false_ne_true
  have hslash := hc.ne (by decide : '/'.isAlpha = false ∧ '/' ≠ '_')
  rw [skipLoop, if_neg Bool.false_ne_true, if_neg hspace, if_neg fun h => hslash h.1]

/-- A text is an identifier when it is taken for one with nothing after it. -/
theorem isIdentifier_iff (hu : u.Documented) :
    IsIdentifier u s ↔ ∃ c cs, s = c :: cs ∧ WordBefore u c cs [] := by
  constructor
  · intro h
    obtain ⟨c, cs, r, hs, -, hword, -, hl⟩ := (next_ident_iff hu).mp h
    simp only [Lexer.mk.injEq] at hl
    rw [← hl.1] at hword
    exact ⟨c, cs, hs, hword⟩
  · rintro ⟨c, cs, rfl, hword⟩
    have hskip := skipLoop_word (hword.startsWord hu) cs
    refine (next_ident_iff hu).mpr ⟨c, cs, [], rfl, ?_, hword, ?_, rfl⟩
    · rw [hskip, List.append_nil]
    · simp only [cutSpan, List.append_nil]
      rw [Nat.sub_self]
      rfl

/-- The parser takes an identifier from a token of the lexer. -/
def IsLexed (u : Unicode) (x : Text) : Prop :=
  ∃ s n span l, next u ⟨s, n, []⟩ = some (some (some (.ident x), span), l)

theorem IsIdentifier.isLexed (h : IsIdentifier u x) : IsLexed u x := ⟨x, _, _, _, h⟩

/-- No other ASCII characters than letters, digits and underscores are in an identifier. -/
theorem IsLexed.not_mem (hu : u.Documented) (h : IsLexed u x) {c : Char}
    (hc : Text.IsAscii c) (hother : c.isAlphanum = false ∧ c ≠ '_') : c ∉ x := by
  obtain ⟨s, n, span, l, hnext⟩ := h
  obtain ⟨d, ds, r, rfl, -, hword, -, -⟩ := (next_ident_iff hu).mp hnext
  have hcont : u.isXidContinue c = false := by
    rw [hu.continue_ascii c hc]
    simpa using hother
  intro hmem
  rcases List.mem_cons.mp hmem with rfl | hmem
  · have halpha : c.isAlpha = false := by
      have halnum := hother.1
      rw [Char.isAlphanum, Bool.or_eq_false_iff] at halnum
      exact halnum.1
    exact (hword.startsWord hu).ne ⟨halpha, hother.2⟩ rfl
  · have hcut : (ds ++ r).takeWhile u.isXidContinue ++ r = ds ++ r := by
      have hsplit := List.takeWhile_append_dropWhile (p := u.isXidContinue) (l := ds ++ r)
      rwa [show (ds ++ r).dropWhile u.isXidContinue = r from hword.stop] at hsplit
    rw [← List.append_cancel_right hcut] at hmem
    have hall := List.mem_takeWhile_imp hmem
    rw [hcont] at hall
    cases hall

end

theorem letters_documented : letters.Documented where
  start_ascii c hc := by
    have hne : c ≠ 'é' := by
      rintro rfl
      revert hc
      decide
    simp [letters, hne]
  continue_ascii c hc := by
    have hne : c ≠ 'é' := by
      rintro rfl
      revert hc
      decide
    simp [letters, hne]
  continue_space c hc := by
    by_contra hcont
    rw [Bool.not_eq_false] at hcont
    have hcases : (c.isAlphanum = true ∨ c = '_') ∨ c = 'é' := by
      simpa [letters] using hcont
    rcases hcases with (halnum | rfl) | rfl
    · have hcode : c.toNat = c.val.toNat := rfl
      have h0 : '0'.val.toNat = 0x30 := rfl
      have h9 : '9'.val.toNat = 0x39 := rfl
      have hA : 'A'.val.toNat = 0x41 := rfl
      have hZ : 'Z'.val.toNat = 0x5A := rfl
      have ha : 'a'.val.toNat = 0x61 := rfl
      have hz : 'z'.val.toNat = 0x7A := rfl
      simp only [Char.isAlphanum, isAlpha_eq, Char.isDigit,
        Bool.or_eq_true, Bool.and_eq_true, decide_eq_true_eq, UInt32.le_iff_toNat_le,
        ge_iff_le] at halnum
      rw [isWhitespace_false (by omega) (by omega)] at hc
      cases hc
    · revert hc
      decide
    · revert hc
      decide

end Roto.Parser
