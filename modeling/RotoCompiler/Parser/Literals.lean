import RotoCompiler.Ast
import RotoCompiler.Lib.ParseInt
import RotoCompiler.Parser.LexerSafe
import Mathlib.Data.List.TakeWhile
import Mathlib.Tactic.IntervalCases

/-!
# Integer literals (parser/expr.rs, simple_literal)

The arms of `simple_literal` for tokens of integers. Parsing of floats is a parameter: a
literal with the suffix of a float type is a float.
-/

namespace Roto.Ast

/-- The name of the type, as `literal` of the type checker gives it. -/
def IntType.ident : IntType → Identifier
  | i8 => "i8"
  | i16 => "i16"
  | i32 => "i32"
  | i64 => "i64"
  | u8 => "u8"
  | u16 => "u16"
  | u32 => "u32"
  | u64 => "u64"

end Roto.Ast

namespace Roto.Parser
open Ast (Literal IntType FloatType)
open Lib
open String (utf8Len)

/-- `ParseErrorKind::InvalidLiteral`. -/
structure InvalidLiteral where
  description : String
  token : Text
  innerError : String
  deriving DecidableEq, Repr

def i64Range : IntRange := ⟨-2 ^ 63, 2 ^ 63 - 1⟩

def intSuffixes : List (String × Option IntType) :=
  [("i8", some .i8), ("i16", some .i16), ("i32", some .i32), ("i64", some .i64),
    ("u8", some .u8), ("u16", some .u16), ("u32", some .u32), ("u64", some .u64), ("", none)]

/-- The arm for `Token::Integer`. -/
def integerLiteral (parseF64 : Text → Except String ℕ) (s suffix : Text) :
    Except InvalidLiteral Literal :=
  let digits := s.filter fun c => c ≠ '_'
  let float (ty : FloatType) : Except InvalidLiteral Literal :=
    match parseF64 digits with
    | .error e => .error ⟨"float", s ++ suffix, e⟩
    | .ok f => .ok (.float f (some ty))
  if suffix = "f32".toList then float .f32
  else if suffix = "f64".toList then float .f64
  else
    match i64Range.fromStrRadix 10 digits with
    | .error e => .error ⟨"integer", s ++ suffix, e.display⟩
    | .ok n =>
      match intSuffixes.find? fun e => e.1.toList = suffix with
      | some (_, ty) => .ok (.integer n ty)
      | none => .error ⟨"integer", s ++ suffix, s!"invalid suffix `{String.ofList suffix}`"⟩

/-- The arm for `Token::Hex`. -/
def hexLiteral (s : Text) : Except InvalidLiteral Literal :=
  match i64Range.fromStrRadix 16 (s.drop 2) with
  | .error e => .error ⟨"hexadecimal integer", s, e.display⟩
  | .ok n => .ok (.integer n none)

/-! ### The literals of the lexer -/

/-- An integer literal as the lexer cuts it. -/
inductive IntLiteral where
  | decimal (first : Char) (rest suffix : Text) (hfirst : isAsciiDigit first = true)
      (hrest : ∀ c ∈ rest, isRotoDigit c = true)
  | hex (digits : Text) (hdigits : ∀ c ∈ digits, isAsciiHexdigit c = true)

namespace IntLiteral

def token : IntLiteral → Token
  | decimal first rest suffix _ _ => .integer (first :: rest) suffix
  | hex digits _ => .hex ('0' :: 'x' :: digits)

/-- The integer that is written. -/
def written : IntLiteral → ℕ
  | decimal first rest _ _ _ => Digits.value 10 ((first :: rest).filter fun c => c ≠ '_')
  | hex digits _ => Digits.value 16 digits

def parse (parseF64 : Text → Except String ℕ) : IntLiteral → Except InvalidLiteral Literal
  | decimal first rest suffix _ _ => integerLiteral parseF64 (first :: rest) suffix
  | hex digits _ => hexLiteral ('0' :: 'x' :: digits)

end IntLiteral

/-- A token of an integer is an integer literal. -/
def WellCut : Token → Prop
  | .integer num suffix => ∃ lit : IntLiteral, lit.token = .integer num suffix
  | .hex s => ∃ lit : IntLiteral, lit.token = .hex s
  | _ => True

def Token.isInteger : Token → Bool
  | .integer _ _ | .hex _ => true
  | _ => false

/-- What a sub-lexer breaks with. -/
def Breaks (P : Token → Prop) (r : Option Flow) : Prop :=
  ∀ tok span l, r = some (.brk tok span l) → P tok

section
variable {P : Token → Prop} {l : Lexer} {tail : Text} {u : Unicode}

theorem breaks_cont : Breaks P (some .cont) := by
  intro tok span l h
  cases h

theorem breaks_brkTo {token : Text → Token} (h : ∀ s, P (token s)) :
    Breaks P (brkTo l tail token) := by
  intro tok span l' hbrk
  unfold brkTo at hbrk
  cases hto : l.bumpTo tail with
  | none => simp [hto] at hbrk
  | some r =>
    simp only [hto, Option.bind_eq_bind, Option.bind_some, Option.pure_def, Option.some.injEq,
      Flow.brk.injEq] at hbrk
    obtain ⟨rfl, -, -⟩ := hbrk
    exact h _

theorem WellCut.exists_literal {tok : Token} (h : WellCut tok) (hint : tok.isInteger = true) :
    ∃ lit : IntLiteral, lit.token = tok := by
  cases tok with
  | integer num suffix => exact h
  | hex s => exact h
  | _ => cases hint

theorem wellCut_of_other {tok : Token} (h : tok.isInteger = false) : WellCut tok := by
  cases tok with
  | integer num suffix => cases h
  | hex s => cases h
  | _ => trivial

theorem keywordToken_wellCut (s : Text) : WellCut (keywordToken s) := by
  have hall : ∀ e ∈ keywords, e.2.isInteger = false := by decide
  unfold keywordToken
  split
  · next k tok hfind => exact wellCut_of_other (hall _ (List.mem_of_find?_eq_some hfind))
  · trivial

theorem twoCharPunctuation_breaks (hall : ∀ e ∈ twoChars, P e.2.2) :
    Breaks P (twoCharPunctuation l) := by
  intro tok span l' h
  unfold twoCharPunctuation at h
  split at h
  · split at h
    · cases h
    · next c d t hfind =>
      have hmem := List.mem_of_find?_eq_some hfind
      cases hbump : l.bump 2 with
      | none => simp [hbump] at h
      | some r =>
        simp only [hbump, Option.bind_eq_bind, Option.bind_some, Option.pure_def,
          Option.some.injEq, Flow.brk.injEq] at h
        obtain ⟨rfl, -, -⟩ := h
        exact hall _ hmem
  · cases h

theorem oneCharPunctuation_breaks (hall : ∀ e ∈ oneChars, P e.2) :
    Breaks P (oneCharPunctuation l) := by
  intro tok span l' h
  unfold oneCharPunctuation at h
  split at h
  · split at h
    · cases h
    · next c t hfind =>
      have hmem := List.mem_of_find?_eq_some hfind
      cases hbump : l.bump 1 with
      | none => simp [hbump] at h
      | some r =>
        simp only [hbump, Option.bind_eq_bind, Option.bind_some, Option.pure_def,
          Option.some.injEq, Flow.brk.injEq] at h
        obtain ⟨rfl, -, -⟩ := h
        exact hall _ hmem
  · cases h

theorem twoCharPunctuation_wellCut : Breaks WellCut (twoCharPunctuation l) := by
  have hall : ∀ e ∈ twoChars, e.2.2.isInteger = false := by decide
  exact twoCharPunctuation_breaks fun e he => wellCut_of_other (hall e he)

theorem oneCharPunctuation_wellCut : Breaks WellCut (oneCharPunctuation l) := by
  have hall : ∀ e ∈ oneChars, e.2.isInteger = false := by decide
  exact oneCharPunctuation_breaks fun e he => wellCut_of_other (hall e he)

theorem hexNumber_wellCut : Breaks WellCut (hexNumber l) := by
  intro tok span l' h
  unfold hexNumber at h
  dsimp only at h
  split_ifs at h with hate
  · cases h
  have hprefix : "0x".toList.isPrefixOf l.input = true := by
    by_contra hnot
    rw [eatStr, if_neg hnot] at hate
    exact hate rfl
  obtain ⟨s, hs⟩ := List.isPrefixOf_iff_prefix.mp hprefix
  have htail : (eatStr "0x" l.input).2 = s := by
    rw [eatStr, if_pos hprefix, ← hs]
    rfl
  rw [htail] at h
  have hsplit : s.takeWhile isAsciiHexdigit ++ (eatWhile isAsciiHexdigit s).2 = s :=
    List.takeWhile_append_dropWhile
  have hinput : ('0' :: 'x' :: s.takeWhile isAsciiHexdigit) ++ (eatWhile isAsciiHexdigit s).2 =
      l.input := by
    rw [← hs, List.cons_append, List.cons_append, hsplit]
    rfl
  obtain ⟨a, ha, hbump⟩ := bumpTo_eq (l := l) ⟨_, hinput⟩
  rw [brkTo, hbump] at h
  simp only [Option.bind_eq_bind, Option.bind_some, Option.pure_def, Option.some.injEq,
    Flow.brk.injEq] at h
  obtain ⟨rfl, -, -⟩ := h
  have hcut : a = '0' :: 'x' :: s.takeWhile isAsciiHexdigit :=
    List.append_cancel_right (ha.trans hinput.symm)
  exact ⟨.hex _ fun c hc => List.mem_takeWhile_imp hc, by rw [hcut]; rfl⟩

theorem eatOneOf_false {options : List Char} (h : (eatOneOf options tail).1 = false) :
    (eatOneOf options tail).2 = tail := by
  cases tail with
  | nil => rfl
  | cons c tail =>
    simp only [eatOneOf] at h ⊢
    split_ifs at h ⊢
    rfl

/-- Where the number is not a float, the tail is the one after the digits. -/
theorem floatPart_integer (h : (floatPart u tail).1 = false) : (floatPart u tail).2 = tail := by
  unfold floatPart at h ⊢
  dsimp only at h ⊢
  split at h
  · split_ifs at h ⊢
    rfl
  · split_ifs at h
  · split_ifs at h ⊢ with hexp
    exact eatOneOf_false (Bool.eq_false_iff.mpr hexp)

theorem number_wellCut : Breaks WellCut (number u l) := by
  intro tok span l' h
  unfold number at h
  split at h
  · cases h
  next first rest hinput =>
  split_ifs at h with hfirst
  · cases h
  have hdigits := eatWhile_suffix isRotoDigit l.input
  have hfloat := (floatPart_suffix u (eatWhile isRotoDigit l.input).2).trans hdigits
  have hint : (floatPart u (eatWhile isRotoDigit l.input).2).1 = false →
      (floatPart u (eatWhile isRotoDigit l.input).2).2 = (eatWhile isRotoDigit l.input).2 :=
    floatPart_integer
  have hsuffix := eatWhile_suffix (fun c => u.isXidContinue c || c = '_')
    (floatPart u (eatWhile isRotoDigit l.input).2).2
  dsimp only at h
  generalize (floatPart u (eatWhile isRotoDigit l.input).2).1 = isFloat at h hint
  generalize (floatPart u (eatWhile isRotoDigit l.input).2).2 = t₁ at h hfloat hsuffix hint
  generalize (eatWhile (fun c => u.isXidContinue c || c = '_') t₁).2 = t₂ at h hsuffix
  obtain ⟨a, ha, hbump⟩ := bumpTo_eq (hsuffix.trans hfloat)
  obtain ⟨p, hp⟩ := hfloat
  obtain ⟨q, hq⟩ := hsuffix
  have hlen : utf8Len l.input - utf8Len t₁ = utf8Len p := by
    rw [← hp, String.utf8Len_append]
    omega
  have hpq : a = p ++ q := by
    rw [← hp, ← hq, ← List.append_assoc] at ha
    exact List.append_cancel_right ha
  rw [hbump] at h
  simp only [bind, Option.bind, hlen, hpq, Text.splitAt_append, pure, Option.some.injEq,
    Flow.brk.injEq] at h
  obtain ⟨rfl, -, -⟩ := h
  cases isFloat with
  | true => trivial
  | false =>
    -- the number is what the loop over digits ate
    have hcut : p = l.input.takeWhile isRotoDigit := by
      have hsplit : l.input.takeWhile isRotoDigit ++ (eatWhile isRotoDigit l.input).2 = l.input :=
        List.takeWhile_append_dropWhile
      rw [hint rfl] at hp
      exact List.append_cancel_right (hp.trans hsplit.symm)
    have hdigit : isAsciiDigit first = true := by simpa using hfirst
    have hroto : isRotoDigit first = true := by simp [isRotoDigit, hdigit]
    rw [hinput, List.takeWhile_cons, if_pos hroto] at hcut
    rw [hcut]
    exact ⟨.decimal first _ q hdigit fun c hc => List.mem_takeWhile_imp hc, rfl⟩

theorem subLexers_wellCut : ∀ f ∈ subLexers u, Breaks WellCut (f l) := by
  have hipv6 : Breaks WellCut (ipv6 l) := by
    unfold ipv6
    split
    · exact breaks_cont
    · exact breaks_brkTo fun s => trivial
  have hipv4 : Breaks WellCut (ipv4 l) := by
    unfold ipv4
    split
    · exact breaks_cont
    · exact breaks_brkTo fun s => trivial
  have hasn : Breaks WellCut (asNumber l) := by
    unfold asNumber
    dsimp only
    split_ifs
    · exact breaks_cont
    · exact breaks_cont
    · exact breaks_brkTo fun s => trivial
  have hfString : Breaks WellCut (fString l) := by
    unfold fString
    dsimp only
    split_ifs
    · exact breaks_cont
    · exact breaks_brkTo fun s => trivial
  have hquoted : ∀ (quote : Char) (token : Text → Token), (∀ s, WellCut (token s)) →
      Breaks WellCut (quoted quote token l) := by
    intro quote token htoken
    unfold quoted
    dsimp only
    split_ifs
    · exact breaks_cont
    · exact breaks_cont
    · exact breaks_brkTo htoken
  have hident : Breaks WellCut (keywordOrIdent u l) := by
    unfold keywordOrIdent
    split
    · exact breaks_cont
    next c tail hinput =>
    split_ifs
    · exact breaks_cont
    · cases hsplit : Text.splitAt l.input 1 with
      | none =>
        intro tok span l' h
        cases h
      | some r => exact breaks_brkTo keywordToken_wellCut
  simp only [subLexers, List.forall_mem_cons, List.not_mem_nil, false_implies, implies_true,
    and_true]
  exact ⟨hipv6, hipv4, twoCharPunctuation_wellCut, oneCharPunctuation_wellCut, hasn,
    hexNumber_wellCut, number_wellCut, hfString, hquoted _ _ fun s => trivial,
    hquoted _ _ fun s => trivial, hident⟩

theorem firstOf_breaks {fs : List SubLexer} (h : ∀ f ∈ fs, Breaks P (f l)) :
    Breaks P (firstOf fs l) := by
  induction fs with
  | nil => exact breaks_cont
  | cons f fs ih =>
    obtain ⟨hf, hfs⟩ := List.forall_mem_cons.mp h
    unfold firstOf
    split
    · exact ih hfs
    · exact hf

/-- The lexer cuts integer literals well. -/
theorem nextInner_wellCut {tok : Token} {span : Span} {l' : Lexer}
    (h : nextInner u l = some (some (some tok, span), l')) : WellCut tok := by
  unfold nextInner at h
  cases hskip : skipWhitespace l with
  | none => simp [hskip] at h
  | some l₁ =>
    simp only [hskip, bind, Option.bind, pure] at h
    split_ifs at h
    · simp at h
    · cases hflow : firstOf (subLexers u) l₁ with
      | none => simp [hflow] at h
      | some flow =>
        cases flow with
        | cont => simp [hflow] at h
        | brk t s l₂ =>
          simp only [hflow, Option.some.injEq, Prod.mk.injEq] at h
          obtain ⟨⟨rfl, -⟩, -⟩ := h
          exact firstOf_breaks subLexers_wellCut _ _ _ hflow

end

/-! ### The values of literals -/

theorem isDigit_of_isAsciiDigit {c : Char} (h : isAsciiDigit c = true) : Digits.IsDigit 10 c := by
  have hrange : '0' ≤ c ∧ c ≤ '9' := by simpa [isAsciiDigit] using h
  exact Digits.isDigit_of_digit hrange le_rfl

theorem isDigit_of_isAsciiHexdigit {c : Char} (h : isAsciiHexdigit c = true) :
    Digits.IsDigit 16 c := by
  have hrange : (('0' ≤ c ∧ c ≤ '9') ∨ ('a' ≤ c ∧ c ≤ 'f')) ∨ ('A' ≤ c ∧ c ≤ 'F') := by
    simpa [isAsciiHexdigit, isAsciiDigit] using h
  rcases hrange with (hc | hc) | hc
  · exact Digits.isDigit_of_digit hc (by norm_num)
  · exact Digits.isDigit_of_lower hc
  · exact Digits.isDigit_of_upper hc

theorem zero_mem_i64Range : (0 : ℤ) ∈ i64Range := by decide

namespace IntLiteral
variable {parseF64 : Text → Except String ℕ} {n : ℤ} {ty : Option IntType}

/-- Without underscores there is still a digit, and nothing but digits. -/
theorem decimal_digits {first : Char} {rest : Text} (hfirst : isAsciiDigit first = true)
    (hrest : ∀ c ∈ rest, isRotoDigit c = true) :
    (first :: rest).filter (fun c => c ≠ '_') ≠ [] ∧
      ∀ c ∈ (first :: rest).filter fun c => c ≠ '_', Digits.IsDigit 10 c := by
  have hne : first ≠ '_' := by
    rintro rfl
    cases hfirst
  refine ⟨?_, fun c hc => ?_⟩
  · rw [List.filter_cons_of_pos (by simpa using hne)]
    exact List.cons_ne_nil _ _
  · obtain ⟨hmem, hc⟩ := List.mem_filter.mp hc
    rcases List.mem_cons.mp hmem with rfl | hmem
    · exact isDigit_of_isAsciiDigit hfirst
    · have hroto := hrest c hmem
      simp only [isRotoDigit, Bool.or_eq_true, decide_eq_true_eq] at hroto
      rcases hroto with hdigit | heq
      · exact isDigit_of_isAsciiDigit hdigit
      · exact absurd heq (by simpa using hc)

/-- A literal is parsed to the integer that is written, or not at all. -/
theorem parse_integer {lit : IntLiteral} (h : lit.parse parseF64 = .ok (.integer n ty)) :
    n = lit.written ∧ n ∈ i64Range := by
  have hparsed : ∀ {radix : ℕ} {s : Text}, 0 < radix → s ≠ [] → (∀ c ∈ s, Digits.IsDigit radix c) →
      ∀ m, i64Range.fromStrRadix radix s = .ok m → m = Digits.value radix s ∧ m ∈ i64Range := by
    intro radix s hradix hne hdigits m hm
    rw [IntRange.fromStrRadix_eq zero_mem_i64Range hradix hne hdigits] at hm
    split_ifs at hm with hle
    obtain rfl := Except.ok.inj hm
    have hnonneg : (0 : ℤ) ≤ Digits.value radix s := Int.natCast_nonneg _
    exact ⟨rfl, zero_mem_i64Range.1.trans hnonneg, hle⟩
  cases lit with
  | decimal first rest suffix hfirst hrest =>
    obtain ⟨hne, hdigits⟩ := decimal_digits hfirst hrest
    have hint := hparsed (by norm_num) hne hdigits
    simp only [parse, integerLiteral] at h
    simp only [written]
    generalize (first :: rest).filter (fun c => c ≠ '_') = s at h hint ⊢
    split_ifs at h
    · cases hf : parseF64 s <;> simp [hf] at h
    · cases hf : parseF64 s <;> simp [hf] at h
    · cases hm : i64Range.fromStrRadix 10 s with
      | error e => simp [hm] at h
      | ok m =>
        rw [hm] at h
        cases hs : intSuffixes.find? fun e => e.1.toList = suffix with
        | none => simp [hs] at h
        | some e =>
          rw [hs] at h
          obtain ⟨rfl, -⟩ := Literal.integer.inj (Except.ok.inj h)
          exact hint m hm
  | hex digits hdigits =>
    have hdrop : List.drop 2 ('0' :: 'x' :: digits) = digits := rfl
    simp only [parse, hexLiteral, hdrop] at h
    cases hm : i64Range.fromStrRadix 16 digits with
    | error e => simp [hm] at h
    | ok m =>
      rw [hm] at h
      obtain ⟨rfl, -⟩ := Literal.integer.inj (Except.ok.inj h)
      by_cases hne : digits = []
      · rw [hne] at hm
        cases hm
      · exact hparsed (by norm_num) hne (fun c hc => isDigit_of_isAsciiHexdigit (hdigits c hc)) m hm

/-- Every integer up to the limit has a literal, with every suffix. -/
theorem exists_literal (m : ℕ) (hm : (m : ℤ) ∈ i64Range) (ty : IntType) :
    ∃ lit : IntLiteral, lit.written = m ∧
      ∀ parseF64, lit.parse parseF64 = .ok (.integer m (some ty)) := by
  have hsuffix : ty.ident.toList ≠ "f32".toList ∧ ty.ident.toList ≠ "f64".toList ∧
      (intSuffixes.find? fun e => e.1.toList = ty.ident.toList) = some (ty.ident, some ty) := by
    cases ty <;> decide
  have hdigit : ∀ c ∈ Digits.text m, isAsciiDigit c = true := by
    intro c hc
    obtain ⟨d, hd, rfl⟩ := Digits.text_digits m c hc
    interval_cases d <;> rfl
  obtain ⟨first, rest, htext⟩ := List.exists_cons_of_ne_nil (Digits.text_ne_nil m)
  rw [htext] at hdigit
  obtain ⟨hfirst, hrest⟩ := List.forall_mem_cons.mp hdigit
  have hfilter : (first :: rest).filter (fun c => c ≠ '_') = first :: rest := by
    refine List.filter_eq_self.mpr fun c hc => ?_
    have hc := hdigit c hc
    simp only [decide_eq_true_eq]
    rintro rfl
    cases hc
  have hvalue : Digits.value 10 (first :: rest) = m := by rw [← htext, Digits.value_text]
  have hroto : ∀ c ∈ rest, isRotoDigit c = true := by
    intro c hc
    simp [isRotoDigit, hrest c hc]
  refine ⟨.decimal first rest ty.ident.toList hfirst hroto, ?_, fun parseF64 => ?_⟩
  · rw [written, hfilter, hvalue]
  · have hparse : i64Range.fromStrRadix 10 (first :: rest) = .ok (m : ℤ) := by
      rw [IntRange.fromStrRadix_eq zero_mem_i64Range (by norm_num) (List.cons_ne_nil _ _)
        fun c hc => isDigit_of_isAsciiDigit (hdigit c hc), hvalue, if_pos hm.2]
    unfold parse integerLiteral
    dsimp only
    rw [if_neg hsuffix.1, if_neg hsuffix.2.1, hfilter, hparse, hsuffix.2.2]

end IntLiteral

end Roto.Parser
