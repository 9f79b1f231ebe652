import RotoCompiler.Parser.FStringText
import RotoCompiler.Parser.ReturnedValues

/-!
# F-strings (parser/lexer.rs, parser/expr.rs)

The lexer and the parser over the text of a whole f-string. The parser asks for a part right
after the start of the f-string and after the `}` of an expression, so that what the two pass
to each other is one list of tokens and parts. Only where the parser looks at a third token, behind
a `{` and the start of an f-string, does the lexer make a token that is not in this list.
-/

namespace Roto.Parser
open Lib
open Ast (FStringPart)
open String (utf8Len)

/-- What is taken off the lexer, one call after the other. -/
inductive Lexes (u : Unicode) : Lexer → List Taken → Lexer → Prop
  | done (l : Lexer) : Lexes u l [] l
  | token {l l' l'' : Lexer} {t : Token} {span : Span} {ts : List Taken}
      (h : next u l = some (some (some t, span), l')) (hs : Lexes u l' ts l'') :
      Lexes u l (.token t :: ts) l''
  | part {l l' l'' : Lexer} {p : FStringToken} {span : Span} {ts : List Taken}
      (h : fStringPart l = some (some (p, span), l')) (hs : Lexes u l' ts l'') :
      Lexes u l (.fString p :: ts) l''

section
variable {u : Unicode} {l l' l'' : Lexer} {as bs : List Taken}

theorem lexes_append (ha : Lexes u l as l') (hb : Lexes u l' bs l'') : Lexes u l (as ++ bs) l'' := by
  induction ha with
  | done l => exact hb
  | token h _ ih => exact .token h (ih hb)
  | part h _ ih => exact .part h (ih hb)

/-- The lexer only depends on what it is asked for. -/
theorem lexes_rest (ha : Lexes u l as l') (h : Lexes u l (as ++ bs) l'') : Lexes u l' bs l'' := by
  induction ha with
  | done l => exact h
  | token hn _ ih =>
    cases h with
    | token hn' hs =>
      rw [hn] at hn'
      cases hn'
      exact ih hs
  | part hp _ ih =>
    cases h with
    | part hp' hs =>
      rw [hp] at hp'
      cases hp'
      exact ih hs

end

/-! ### Tokens around a part -/

theorem eatWhile_stop {p : Char → Bool} {c : Char} (h : p c = false) (tail : Text) :
    eatWhile p (c :: tail) = (false, c :: tail) := by
  simp [eatWhile, h]

theorem ipv4_cont {c : Char} (h : isAsciiDigit c = false) (tail : Text) (n : ℕ) :
    ipv4 ⟨c :: tail, n, []⟩ = some .cont := by
  unfold ipv4 eatGroups
  simp [eatWhile_stop h]

theorem ipv6_cont {c : Char} (h : isAsciiHexdigit c = false) (hc : c ≠ ':') (tail : Text) (n : ℕ) :
    ipv6 ⟨c :: tail, n, []⟩ = some .cont := by
  unfold ipv6 eatGroups
  simp [eatWhile_stop h, eatChar, hc]

theorem next_fStringStart (u : Unicode) (tail : Text) (n : ℕ) :
    ∃ span, next u ⟨'f' :: '"' :: tail, n, []⟩ =
      some (some (some .fStringStart, span), ⟨tail, n, []⟩) := by
  have hskip : skipWhitespace ⟨'f' :: '"' :: tail, n, []⟩ = some ⟨'f' :: '"' :: tail, n, []⟩ :=
    if_neg (lt_irrefl _)
  have hbytes : Text.bytes ('f' :: '"' :: tail) = 0x66 :: 0x22 :: Text.bytes tail := rfl
  have htwo : twoCharPunctuation ⟨'f' :: '"' :: tail, n, []⟩ = some .cont := by
    unfold twoCharPunctuation
    rw [hbytes]
    rfl
  have hone : oneCharPunctuation ⟨'f' :: '"' :: tail, n, []⟩ = some .cont := by
    unfold oneCharPunctuation
    rw [hbytes]
    rfl
  have hipv6 : ipv6 ⟨'f' :: '"' :: tail, n, []⟩ = some .cont := by
    have hf : isAsciiHexdigit 'f' = true := by decide
    have hq : isAsciiHexdigit '"' = false := by decide
    unfold ipv6 eatGroups
    simp [eatWhile, hf, hq, eatChar]
  have hipv4 := ipv4_cont (by decide : isAsciiDigit 'f' = false) ('"' :: tail) n
  have hstart : fString ⟨'f' :: '"' :: tail, n, []⟩ =
      brkTo ⟨'f' :: '"' :: tail, n, []⟩ tail fun _ => .fStringStart := by
    unfold fString eatStr
    rfl
  obtain ⟨a, -, hbump⟩ := @bumpTo_eq ⟨'f' :: '"' :: tail, n, []⟩ tail
    ⟨['f', '"'], rfl⟩
  refine ⟨cutSpan ⟨'f' :: '"' :: tail, n, []⟩ tail, ?_⟩
  show nextInner u _ = _
  unfold nextInner
  rw [hskip]
  show (firstOf (subLexers u) ⟨'f' :: '"' :: tail, n, []⟩).bind _ = _
  have hfirst : firstOf (subLexers u) ⟨'f' :: '"' :: tail, n, []⟩ =
      some (.brk .fStringStart (cutSpan ⟨'f' :: '"' :: tail, n, []⟩ tail) ⟨tail, n, []⟩) := by
    simp only [subLexers, firstOf, hipv6, hipv4, htwo, hone, hstart, brkTo, hbump]
    rfl
  rw [hfirst]
  rfl

/-- A brace is a token of its own. -/
theorem next_brace (u : Unicode) {c : Char} {t : Token}
    (hc : c = '{' ∧ t = .curlyLeft ∨ c = '}' ∧ t = .curlyRight) (tail : Text) (n : ℕ) :
    ∃ span, next u ⟨c :: tail, n, []⟩ = some (some (some t, span), ⟨tail, n, []⟩) := by
  have hskip : skipWhitespace ⟨c :: tail, n, []⟩ = some ⟨c :: tail, n, []⟩ := by
    rcases hc with ⟨rfl, -⟩ | ⟨rfl, -⟩
    · exact if_neg (lt_irrefl _)
    · exact if_neg (lt_irrefl _)
  have hbytes : Text.bytes (c :: tail) = c.val.toUInt8 :: Text.bytes tail := by
    rcases hc with ⟨rfl, -⟩ | ⟨rfl, -⟩ <;> rfl
  have htwo : twoCharPunctuation ⟨c :: tail, n, []⟩ = some .cont := by
    unfold twoCharPunctuation
    rw [hbytes]
    cases Text.bytes tail with
    | nil => rfl
    | cons y ys =>
      have hnone : twoChars.find?
          (fun e => e.1.val.toUInt8 = c.val.toUInt8 ∧ e.2.1.val.toUInt8 = y) = none := by
        rw [List.find?_eq_none]
        intro e he
        have hleft : twoChars.all (fun e => e.1.val.toUInt8 ≠ '{'.val.toUInt8) = true := by decide
        have hright : twoChars.all (fun e => e.1.val.toUInt8 ≠ '}'.val.toUInt8) = true := by decide
        have hne : e.1.val.toUInt8 ≠ c.val.toUInt8 := by
          rcases hc with ⟨rfl, -⟩ | ⟨rfl, -⟩
          · exact of_decide_eq_true (List.all_eq_true.mp hleft e he)
          · exact of_decide_eq_true (List.all_eq_true.mp hright e he)
        simp only [decide_eq_true_eq]
        exact fun h => hne h.1
      simp only [hnone]
  have hone : oneCharPunctuation ⟨c :: tail, n, []⟩ =
      some (.brk t (cutSpan ⟨c :: tail, n, []⟩ tail) ⟨tail, n, []⟩) := by
    have hbump := @bump_eq ⟨c :: tail, n, []⟩ tail [c] rfl
    have hlen : utf8Len [c] = 1 := by
      rcases hc with ⟨rfl, -⟩ | ⟨rfl, -⟩ <;> rfl
    rw [hlen] at hbump
    unfold oneCharPunctuation
    rw [hbytes]
    rcases hc with ⟨rfl, rfl⟩ | ⟨rfl, rfl⟩
    · show Option.bind (Lexer.bump _ 1) _ = _
      rw [hbump]
      rfl
    · show Option.bind (Lexer.bump _ 1) _ = _
      rw [hbump]
      rfl
  have hipv6 : ipv6 ⟨c :: tail, n, []⟩ = some .cont := by
    rcases hc with ⟨rfl, -⟩ | ⟨rfl, -⟩
    · exact ipv6_cont (by decide) (by decide) tail n
    · exact ipv6_cont (by decide) (by decide) tail n
  have hipv4 : ipv4 ⟨c :: tail, n, []⟩ = some .cont := by
    rcases hc with ⟨rfl, -⟩ | ⟨rfl, -⟩
    · exact ipv4_cont (by decide) tail n
    · exact ipv4_cont (by decide) tail n
  refine ⟨cutSpan ⟨c :: tail, n, []⟩ tail, ?_⟩
  show nextInner u _ = _
  unfold nextInner
  rw [hskip]
  show (firstOf (subLexers u) ⟨c :: tail, n, []⟩).bind _ = _
  have hfirst : firstOf (subLexers u) ⟨c :: tail, n, []⟩ =
      some (.brk t (cutSpan ⟨c :: tail, n, []⟩ tail) ⟨tail, n, []⟩) := by
    simp only [subLexers, firstOf, hipv6, hipv4, htwo, hone]
  rw [hfirst]
  rfl

/-! ### Parts -/

theorem utf8Len_of_splitAt (s : Text) : ∀ {n : ℕ} {a b : Text},
    Text.splitAt s n = some (a, b) → utf8Len a = n := by
  induction s with
  | nil =>
    intro n a b h
    cases n with
    | zero =>
      cases h
      rfl
    | succ n => cases h
  | cons c s ih =>
    intro n a b h
    cases n with
    | zero =>
      cases h
      rfl
    | succ n =>
      unfold Text.splitAt at h
      split at h
      · next hle =>
        cases hs : Text.splitAt s (n + 1 - c.utf8Size) with
        | none =>
          rw [hs] at h
          cases h
        | some ab =>
          rw [hs] at h
          cases h
          have hlen := ih hs
          rw [String.utf8Len_cons, hlen]
          omega
      · cases h

theorem ascii_of_bump {l l' : Lexer} {w : Text} {span : Span}
    (h : l.bump w.length = some ((w, span), l')) : ∀ c ∈ w, Text.IsAscii c := by
  unfold Lexer.bump at h
  cases hs : Text.splitAt l.input w.length with
  | none => simp [hs] at h
  | some ab =>
    simp only [hs, bind, Option.bind, pure, Option.some.injEq, Prod.mk.injEq] at h
    have hlen := utf8Len_of_splitAt _ hs
    rw [h.1.1] at hlen
    exact ascii_of_utf8Len hlen

theorem bump_written {w tail : Text} {n : ℕ} (h : ∀ c ∈ w, Text.IsAscii c) :
    Lexer.bump ⟨w ++ tail, n, []⟩ w.length =
      some ((w, cutSpan ⟨w ++ tail, n, []⟩ tail), ⟨tail, n, []⟩) := by
  have hbump := @bump_eq ⟨w ++ tail, n, []⟩ tail w rfl
  rw [utf8Len_ascii h] at hbump
  exact hbump

section
variable (s : Segment) (rest : Text) (n : ℕ)

theorem scan_end : fStringScan .outer 0 (s.written ++ '"' :: rest) = some (.quote s.written.length) := by
  rw [scan_written, Nat.zero_add]
  rfl

theorem part_end (h : ∀ c ∈ s.written, Text.IsAscii c) :
    ∃ span, fStringPart ⟨s.written ++ '"' :: rest, n, []⟩ =
      some (some (.stringEnd s.written, span), ⟨rest, n, []⟩) := by
  have hascii : ∀ c ∈ ['"'], Text.IsAscii c := by
    intro c hc
    rw [List.mem_singleton.mp hc]
    decide
  have hquote := @bump_written ['"'] rest n hascii
  refine ⟨cutSpan ⟨s.written ++ '"' :: rest, n, []⟩ ('"' :: rest), ?_⟩
  unfold fStringPart
  simp only [scan_end, bump_written h]
  show Option.bind (Lexer.bump ⟨['"'] ++ rest, n, []⟩ ['"'].length) _ = _
  rw [hquote]
  rfl

theorem ascii_of_part_end {l : Lexer} {span : Span}
    (h : fStringPart ⟨s.written ++ '"' :: rest, n, []⟩ =
      some (some (.stringEnd s.written, span), l)) : ∀ c ∈ s.written, Text.IsAscii c := by
  unfold fStringPart at h
  simp only [scan_end] at h
  cases hb : Lexer.bump ⟨s.written ++ '"' :: rest, n, []⟩ s.written.length with
  | none => simp [hb] at h
  | some r =>
    obtain ⟨⟨tok, span'⟩, l₁⟩ := r
    cases hq : l₁.bump 1 with
    | none => simp [hb, hq] at h
    | some r =>
      simp only [hb, hq, bind, Option.bind, pure, Option.some.injEq, Prod.mk.injEq,
        FStringToken.stringEnd.injEq] at h
      rw [h.1.1] at hb
      exact ascii_of_bump hb

theorem scan_intermediate {c : Char} (hc : c ≠ '{') :
    fStringScan .outer 0 (s.written ++ '{' :: c :: rest) =
      some (.curly (s.written.length + 1)) := by
  rw [scan_written, Nat.zero_add]
  show fStringScan .curly (s.written.length + 1) (c :: rest) = _
  rw [fStringScan, if_neg hc]

theorem part_intermediate {c : Char} (hc : c ≠ '{') (h : ∀ c ∈ s.written, Text.IsAscii c) :
    ∃ span, fStringPart ⟨s.written ++ '{' :: c :: rest, n, []⟩ =
      some (some (.stringIntermediate s.written, span), ⟨'{' :: c :: rest, n, []⟩) := by
  refine ⟨cutSpan ⟨s.written ++ '{' :: c :: rest, n, []⟩ ('{' :: c :: rest), ?_⟩
  unfold fStringPart
  simp only [scan_intermediate s rest hc, Nat.add_sub_cancel, bump_written h]
  rfl

theorem ascii_of_part_intermediate {c : Char} (hc : c ≠ '{') {l : Lexer} {span : Span}
    (h : fStringPart ⟨s.written ++ '{' :: c :: rest, n, []⟩ =
      some (some (.stringIntermediate s.written, span), l)) :
    ∀ c ∈ s.written, Text.IsAscii c := by
  unfold fStringPart at h
  simp only [scan_intermediate s rest hc, Nat.add_sub_cancel] at h
  cases hb : Lexer.bump ⟨s.written ++ '{' :: c :: rest, n, []⟩ s.written.length with
  | none => simp [hb] at h
  | some r =>
    obtain ⟨⟨tok, span'⟩, l₁⟩ := r
    simp only [hb, bind, Option.bind, pure, Option.some.injEq, Prod.mk.injEq,
      FStringToken.stringIntermediate.injEq] at h
    rw [h.1.1] at hb
    exact ascii_of_bump hb

end

/-! ### Whole f-strings -/

/-- An expression between braces: the lexer takes its text apart into tokens, and the parser reads
it off the tokens before the `}`, up to the ids of nodes, unless on the way it looks at a token
behind the start of an f-string. A `{` at its start is kept apart from the brace before it, which it
would double. -/
structure Interpolation (u : Unicode) (ext : Externals) where
  text : Text
  tokens : List Taken
  IsExpr : Ast.Expr → Prop
  looksBehind : Prop
  apart : text.head? ≠ some '{'
  lexes : ∀ n rest,
    Lexes u ⟨text ++ '}' :: rest, n, []⟩ (tokens ++ [.token .curlyRight]) ⟨rest, n, []⟩
  parses : ∃ least, ∀ depth ≥ least, ∀ more id,
    (∃ e id', Parse.assignExpr ext depth ⟨false⟩ ⟨tokens ++ .token .curlyRight :: more, id⟩ =
      .ok (e, ⟨.token .curlyRight :: more, id'⟩) ∧ IsExpr e ∧ ¬ looksBehind) ∨
    Parse.assignExpr ext depth ⟨false⟩ ⟨tokens ++ .token .curlyRight :: more, id⟩ =
      .error .lexedText ∧ looksBehind

/-- The sequences of texts and expressions with no two texts in a row. -/
inductive FStr (u : Unicode) (ext : Externals) where
  | last (t : Option Segment)
  | more (t : Option Segment) (e : Interpolation u ext) (rest : FStr u ext)

namespace FStr
variable {u : Unicode} {ext : Externals}

/-- What stands before an expression or the end. -/
def segment (t : Option Segment) : Segment := t.getD []

/-- What is written behind the start of the f-string. -/
def body : FStr u ext → Text
  | last t => (segment t).written ++ ['"']
  | more t e rest => (segment t).written ++ '{' :: (e.text ++ '}' :: rest.body)

def source (f : FStr u ext) : Text := 'f' :: '"' :: f.body

def bodyTokens : FStr u ext → List Taken
  | last t => [.fString (.stringEnd (segment t).written)]
  | more t e rest =>
    .fString (.stringIntermediate (segment t).written) :: .token .curlyLeft ::
      (e.tokens ++ .token .curlyRight :: rest.bodyTokens)

/-- The parts of the lexer, with the tokens around them. -/
def tokens (f : FStr u ext) : List Taken := .token .fStringStart :: f.bodyTokens

/-- A text is one part, and where there is none there is no part. -/
def TextPart (t : Option Segment) (ps : List FStringPart) : Prop :=
  match t with
  | none => ps = []
  | some s => ∃ id, ps = [.string id (String.ofList s.text)]

/-- The parts of the parser are the texts and the expressions. -/
def Parts : FStr u ext → List FStringPart → Prop
  | last t, ps => TextPart t ps
  | more t e rest, ps => ∃ qs id e' rs, ps = qs ++ .expr id e' :: rs ∧ TextPart t qs ∧
      e.IsExpr e' ∧ rest.Parts rs

/-- The lexer gives back what was written, and the parser makes the texts and the expressions
of it. -/
structure GivesBack (f : FStr u ext) : Prop where
  lexes : ∀ n rest, Lexes u ⟨f.source ++ rest, n, []⟩ f.tokens ⟨rest, n, []⟩
  parses : ∃ least, ∀ depth ≥ least, ∀ more id, ∃ id' id'' ps,
    Parse.fString ext depth ⟨f.tokens ++ more, id⟩ = .ok (.fString id' ps, ⟨more, id''⟩) ∧
      f.Parts ps

/-- A text that is not empty, with neither a character beyond ASCII nor a carriage return
written as itself, and with no run of equal braces that has two `\u` escapes. -/
structure Kept (s : Segment) : Prop where
  ne_nil : s ≠ []
  ascii : ∀ l ∈ s, l.digits = none → Text.IsAscii l.char
  cr : ∀ l ∈ s, l.digits = none → l.char ≠ '\r'
  braces : bracesOk none s = true

/-- All texts are kept, and no expression makes the parser look behind the start of an f-string. -/
def Good : FStr u ext → Prop
  | last t => ∀ s ∈ t, Kept s
  | more t e rest => (∀ s ∈ t, Kept s) ∧ ¬ e.looksBehind ∧ rest.Good

/-! ### The lexer -/

/-- Everything is written in ASCII. -/
def Ascii : FStr u ext → Prop
  | last t => ∀ c ∈ (segment t).written, Text.IsAscii c
  | more t _ rest => (∀ c ∈ (segment t).written, Text.IsAscii c) ∧ rest.Ascii

/-- The first character behind the brace before an expression. -/
theorem head_apart (e : Interpolation u ext) (rest : Text) :
    ∃ c tail, e.text ++ '}' :: rest = c :: tail ∧ c ≠ '{' := by
  have happ := e.apart
  cases ht : e.text with
  | nil => exact ⟨'}', rest, rfl, by decide⟩
  | cons c tail =>
    rw [ht] at happ
    refine ⟨c, tail ++ '}' :: rest, rfl, ?_⟩
    rintro rfl
    exact happ rfl

theorem body_more (t : Option Segment) (e : Interpolation u ext) (f : FStr u ext) (rest : Text) :
    (more t e f).body ++ rest =
      (segment t).written ++ '{' :: (e.text ++ '}' :: (f.body ++ rest)) := by
  simp [body]

theorem bodyTokens_more (t : Option Segment) (e : Interpolation u ext) (f : FStr u ext) :
    (more t e f).bodyTokens =
      .fString (.stringIntermediate (segment t).written) :: .token .curlyLeft ::
        ((e.tokens ++ [.token .curlyRight]) ++ f.bodyTokens) := by
  simp [bodyTokens]

theorem body_lexes (f : FStr u ext) (hf : f.Ascii) (n : ℕ) (rest : Text) :
    Lexes u ⟨f.body ++ rest, n, []⟩ f.bodyTokens ⟨rest, n, []⟩ := by
  induction f with
  | last t =>
    obtain ⟨span, hpart⟩ := part_end (segment t) rest n hf
    have hbody : (last t : FStr u ext).body ++ rest = (segment t).written ++ '"' :: rest := by
      simp [body]
    rw [hbody]
    exact .part hpart (.done _)
  | more t e f ih =>
    obtain ⟨hascii, hf⟩ := hf
    rw [body_more, bodyTokens_more]
    obtain ⟨c, tail, htail, hc⟩ := head_apart e (f.body ++ rest)
    obtain ⟨span, hpart⟩ := part_intermediate (segment t) tail n hc hascii
    rw [← htail] at hpart
    obtain ⟨span', hcurly⟩ := next_brace u (.inl ⟨rfl, rfl⟩) (e.text ++ '}' :: (f.body ++ rest)) n
    exact .part hpart (.token hcurly (lexes_append (e.lexes n _) (ih hf)))

theorem ascii_of_lexes (f : FStr u ext) (n : ℕ) (rest : Text) {l : Lexer}
    (h : Lexes u ⟨f.body ++ rest, n, []⟩ f.bodyTokens l) : f.Ascii := by
  induction f generalizing l with
  | last t =>
    have hbody : (last t : FStr u ext).body ++ rest = (segment t).written ++ '"' :: rest := by
      simp [body]
    rw [hbody] at h
    cases h with
    | part hpart _ => exact ascii_of_part_end (segment t) rest n hpart
  | more t e f ih =>
    rw [body_more, bodyTokens_more] at h
    obtain ⟨c, tail, htail, hc⟩ := head_apart e (f.body ++ rest)
    cases h with
    | @part _ l₁ _ _ span _ hpart hs =>
      have hpart' := hpart
      rw [htail] at hpart'
      have hascii := ascii_of_part_intermediate (segment t) tail n hc hpart'
      obtain ⟨span', hmid⟩ := part_intermediate (segment t) tail n hc hascii
      rw [hmid] at hpart'
      cases hpart'
      rw [← htail] at hs
      obtain ⟨span'', hcurly⟩ := next_brace u (.inl ⟨rfl, rfl⟩) (e.text ++ '}' :: (f.body ++ rest)) n
      cases hs with
      | token hnext hs =>
        rw [hcurly] at hnext
        cases hnext
        exact ⟨hascii, ih (lexes_rest (e.lexes n _) hs)⟩

theorem source_lexes_iff (f : FStr u ext) :
    (∀ n rest, Lexes u ⟨f.source ++ rest, n, []⟩ f.tokens ⟨rest, n, []⟩) ↔ f.Ascii := by
  have hsource : ∀ rest, f.source ++ rest = 'f' :: '"' :: (f.body ++ rest) := fun _ => rfl
  constructor
  · intro h
    have h0 := h 0 []
    rw [hsource] at h0
    obtain ⟨span, hstart⟩ := next_fStringStart u (f.body ++ []) 0
    cases h0 with
    | token hnext hs =>
      rw [hstart] at hnext
      cases hnext
      exact ascii_of_lexes f 0 [] hs
  · intro hf n rest
    rw [hsource]
    obtain ⟨span, hstart⟩ := next_fStringStart u (f.body ++ rest) n
    exact .token hstart (body_lexes f hf n rest)

/-! ### The parser -/

/-- The parser's part for a text of the lexer. -/
def pushText (ext : Externals) (s : Text) (parts : List FStringPart) :
    Parse (List FStringPart) :=
  if s.isEmpty then pure parts
  else do
    let s ← Parse.escape (Parse.fStringText ext s)
    pure (parts ++ [.string (← Parse.addSpan) (String.ofList s)])

theorem fStringLoop_end (depth : ℕ) (acc : List FStringPart) (w : Text) (toks : List Taken)
    (id : MetaId) :
    Parse.fStringLoop ext (depth + 1) acc ⟨.fString (.stringEnd w) :: toks, id⟩ =
      (do
        let parts ← pushText ext w acc
        return Ast.Expr.fString (← Parse.addSpan) parts) ⟨toks, id⟩ := by
  have hpart : Parse.fStringPart ⟨.fString (.stringEnd w) :: toks, id⟩ =
      .ok (some (.stringEnd w), ⟨toks, id⟩) := rfl
  unfold pushText
  rw [Parse.fStringLoop]
  cases w with
  | nil => rfl
  | cons c w =>
    rw [Parse.bind_ok hpart]
    dsimp only
    cases Parse.fStringText ext (c :: w) with
    | error e => rfl
    | ok x => rfl

theorem fStringLoop_intermediate (depth : ℕ) (acc : List FStringPart) (w : Text)
    (toks : List Taken) (id : MetaId) :
    Parse.fStringLoop ext (depth + 1) acc ⟨.fString (.stringIntermediate w) :: toks, id⟩ =
      (do
        let parts ← pushText ext w acc
        Parse.take .curlyLeft
        let e ← Parse.assignExpr ext depth ⟨false⟩
        let parts := parts ++ [FStringPart.expr (← Parse.addSpan) e]
        Parse.take .curlyRight
        Parse.fStringLoop ext depth parts) ⟨toks, id⟩ := by
  have hpart : Parse.fStringPart ⟨.fString (.stringIntermediate w) :: toks, id⟩ =
      .ok (some (.stringIntermediate w), ⟨toks, id⟩) := rfl
  unfold pushText
  rw [Parse.fStringLoop]
  cases w with
  | nil => rfl
  | cons c w =>
    rw [Parse.bind_ok hpart]
    dsimp only
    cases Parse.fStringText ext (c :: w) with
    | error e => rfl
    | ok x => rfl

/-- The part that the parser makes where `t` is written. -/
def DecodedPart (ext : Externals) (t : Option Segment) (ps : List FStringPart) : Prop :=
  (segment t).written = [] ∧ ps = [] ∨ ∃ id x, (segment t).written ≠ [] ∧
    Parse.fStringText ext (segment t).written = .ok x ∧ ps = [.string id (String.ofList x)]

def Decoded : FStr u ext → List FStringPart → Prop
  | last t, ps => DecodedPart ext t ps
  | more t e rest, ps => ∃ qs id e' rs, ps = qs ++ .expr id e' :: rs ∧ DecodedPart ext t qs ∧
      e.IsExpr e' ∧ ¬ e.looksBehind ∧ rest.Decoded rs

/-- The text before an expression or the end is unescaped without an error. -/
def DecodesPart (ext : Externals) (t : Option Segment) : Prop :=
  (segment t).written = [] ∨ ∃ x, Parse.fStringText ext (segment t).written = .ok x

def Decodes : FStr u ext → Prop
  | last t => DecodesPart ext t
  | more t e rest => DecodesPart ext t ∧ ¬ e.looksBehind ∧ rest.Decodes

theorem pushText_run (t : Option Segment) (acc : List FStringPart) (toks : List Taken)
    (id : MetaId) :
    (∃ qs id', pushText ext (segment t).written acc ⟨toks, id⟩ = .ok (acc ++ qs, ⟨toks, id'⟩) ∧
      DecodedPart ext t qs) ∨
    (∃ e, pushText ext (segment t).written acc ⟨toks, id⟩ = .error e) ∧ ¬ DecodesPart ext t := by
  unfold pushText DecodedPart DecodesPart
  generalize (segment t).written = w
  cases w with
  | nil => exact .inl ⟨[], id, by rw [List.append_nil]; rfl, .inl ⟨rfl, rfl⟩⟩
  | cons c w =>
    cases hx : Parse.fStringText ext (c :: w) with
    | error e =>
      refine .inr ⟨⟨.custom e e none, rfl⟩, ?_⟩
      rintro (h | ⟨x, h⟩)
      · cases h
      · cases h
    | ok x =>
      exact .inl ⟨[.string id (String.ofList x)], id + 1, rfl,
        .inr ⟨id, x, List.cons_ne_nil _ _, rfl, rfl⟩⟩

theorem take_ok (t : Token) (toks : List Taken) (id : MetaId) :
    Parse.take t ⟨.token t :: toks, id⟩ = .ok ((), ⟨toks, id⟩) := by
  unfold Parse.take
  rw [Parse.bind_ok (rfl : Parse.next ⟨.token t :: toks, id⟩ = .ok (t, ⟨toks, id⟩)), if_pos rfl]
  rfl

theorem bind_error {α β : Type} {m : Parse α} {s : ParserState} {e : ParseError}
    (h : m s = .error e) (k : α → Parse β) : (m >>= k) s = .error e := by
  rw [Parse.bind_apply, h]
  rfl

/-- The loop takes off what the lexer has given, and ends with an error just where a text is one or
the parser has looked behind the start of an f-string. -/
theorem fStringLoop_run (f : FStr u ext) : ∃ least, ∀ depth ≥ least, ∀ acc more id,
    (∃ id' id'' ps, Parse.fStringLoop ext depth acc ⟨f.bodyTokens ++ more, id⟩ =
      .ok (.fString id' (acc ++ ps), ⟨more, id''⟩) ∧ f.Decoded ps) ∨
    (∃ e, Parse.fStringLoop ext depth acc ⟨f.bodyTokens ++ more, id⟩ = .error e) ∧ ¬ f.Decodes := by
  induction f with
  | last t =>
    refine ⟨1, fun depth hdepth acc more id => ?_⟩
    obtain ⟨d, rfl⟩ : ∃ d, depth = d + 1 := ⟨depth - 1, by omega⟩
    show (∃ id' id'' ps, Parse.fStringLoop ext (d + 1) acc
      ⟨.fString (.stringEnd (segment t).written) :: more, id⟩ = _ ∧ _) ∨ (∃ e,
        Parse.fStringLoop ext (d + 1) acc
          ⟨.fString (.stringEnd (segment t).written) :: more, id⟩ = _) ∧ _
    rw [fStringLoop_end]
    rcases @pushText_run ext t acc more id with ⟨qs, id', hpush, hqs⟩ | ⟨⟨e, he⟩, hnot⟩
    · rw [Parse.bind_ok hpush]
      exact .inl ⟨id', id' + 1, qs, rfl, hqs⟩
    · exact .inr ⟨⟨e, bind_error he _⟩, hnot⟩
  | more t e f ih =>
    obtain ⟨least, ih⟩ := ih
    obtain ⟨least', hparses⟩ := e.parses
    refine ⟨max least least' + 1, fun depth hdepth acc more id => ?_⟩
    obtain ⟨d, rfl⟩ : ∃ d, depth = d + 1 := ⟨depth - 1, by omega⟩
    have hd := Nat.le_of_succ_le_succ hdepth
    have htoks : (FStr.more t e f).bodyTokens ++ more =
        .fString (.stringIntermediate (segment t).written) :: .token .curlyLeft ::
          (e.tokens ++ .token .curlyRight :: (f.bodyTokens ++ more)) := by
      simp [bodyTokens]
    rw [htoks, fStringLoop_intermediate]
    rcases @pushText_run ext t acc
        (.token .curlyLeft :: (e.tokens ++ .token .curlyRight :: (f.bodyTokens ++ more))) id with
      ⟨qs, id', hpush, hqs⟩ | ⟨⟨err, herr⟩, hnot⟩
    swap
    · exact .inr ⟨⟨err, bind_error herr _⟩, fun h => hnot h.1⟩
    rw [Parse.bind_ok hpush, Parse.bind_ok (take_ok _ _ _)]
    rcases hparses d (le_trans (le_max_right _ _) hd) (f.bodyTokens ++ more) id' with
      ⟨e', id'', hexpr, hise, hlooks⟩ | ⟨hexpr, hlooks⟩
    swap
    · exact .inr ⟨⟨_, bind_error hexpr _⟩, fun h => h.2.1 hlooks⟩
    rw [Parse.bind_ok hexpr]
    have hspan : Parse.addSpan ⟨.token .curlyRight :: (f.bodyTokens ++ more), id''⟩ =
        .ok (id'', ⟨.token .curlyRight :: (f.bodyTokens ++ more), id'' + 1⟩) := rfl
    rw [Parse.bind_ok hspan, Parse.bind_ok (take_ok _ _ _)]
    rcases ih d (le_trans (le_max_left _ _) hd) (acc ++ qs ++ [.expr id'' e']) more (id'' + 1)
      with ⟨id₁, id₂, ps, hrun, hps⟩ | ⟨⟨err, herr⟩, hnot⟩
    · rw [hrun]
      refine .inl ⟨id₁, id₂, qs ++ .expr id'' e' :: ps, by simp, qs, id'', e', ps, rfl, hqs, hise,
        hlooks, hps⟩
    · exact .inr ⟨⟨err, herr⟩, fun h => hnot h.2.2⟩

/-! ### Texts -/

/-- The text is not empty and the parser makes it of what is written. -/
def TextKept (ext : Externals) (t : Option Segment) : Prop :=
  ∀ s ∈ t, s ≠ [] ∧ Parse.fStringText ext s.written = .ok s.text

def TextsKept : FStr u ext → Prop
  | last t => TextKept ext t
  | more t e rest => TextKept ext t ∧ ¬ e.looksBehind ∧ rest.TextsKept

theorem written_ne_nil {s : Segment} (h : s ≠ []) : s.written ≠ [] := by
  cases s with
  | nil => exact absurd rfl h
  | cons l s =>
    intro hnil
    have hl : l.written = [] := (List.append_eq_nil_iff.mp hnil).1
    obtain ⟨c, digits, hd⟩ := l
    cases digits with
    | some ds => cases hl
    | none =>
      have hown : ownText c = [] := hl
      unfold ownText at hown
      split_ifs at hown

theorem decodedPart_text {t : Option Segment} {ps : List FStringPart}
    (h : DecodedPart ext t ps) : TextPart t ps ↔ TextKept ext t := by
  cases t with
  | none =>
    refine ⟨fun _ s hs => (nomatch hs), fun _ => ?_⟩
    rcases h with ⟨-, hps⟩ | ⟨_, _, hne, -⟩
    · exact hps
    · exact absurd rfl hne
  | some s =>
    constructor
    · rintro ⟨id, hps⟩ s' hs
      obtain rfl := Option.some.inj hs
      rcases h with ⟨-, hnil⟩ | ⟨id', x, hne, hx, hps'⟩
      · rw [hnil] at hps
        cases hps
      · rw [hps] at hps'
        have htext : s.text = x :=
          String.ofList_injective (FStringPart.string.inj (List.cons.inj hps').1).2
        refine ⟨?_, ?_⟩
        · rintro rfl
          exact hne rfl
        · rw [htext]
          exact hx
    · intro hkept
      obtain ⟨hne, htext⟩ := hkept s rfl
      rcases h with ⟨hnil, -⟩ | ⟨id, x, -, hx, hps⟩
      · exact absurd hnil (written_ne_nil hne)
      · have hx : Parse.fStringText ext s.written = .ok x := hx
        rw [htext] at hx
        obtain rfl := Except.ok.inj hx
        exact ⟨id, hps⟩

/-- What stands before an expression is a text or nothing, so that it ends at the expression. -/
theorem parts_split {qs qs' rs rs' : List FStringPart} {id id' : MetaId} {e e' : Ast.Expr}
    (h : qs ++ .expr id e :: rs = qs' ++ .expr id' e' :: rs')
    (hqs : qs = [] ∨ ∃ id s, qs = [.string id s]) (hqs' : qs' = [] ∨ ∃ id s, qs' = [.string id s]) :
    qs = qs' ∧ rs = rs' := by
  rcases hqs with rfl | ⟨_, _, rfl⟩
  · rcases hqs' with rfl | ⟨_, _, rfl⟩
    · exact ⟨rfl, (List.cons.inj h).2⟩
    · exact FStringPart.noConfusion (List.cons.inj h).1
  · rcases hqs' with rfl | ⟨_, _, rfl⟩
    · exact FStringPart.noConfusion (List.cons.inj h).1
    · obtain ⟨h1, h2⟩ := List.cons.inj h
      exact ⟨by rw [h1], (List.cons.inj h2).2⟩

theorem decodedPart_short {t : Option Segment} {ps : List FStringPart}
    (h : DecodedPart ext t ps) : ps = [] ∨ ∃ id s, ps = [.string id s] := by
  rcases h with ⟨-, h⟩ | ⟨id, x, -, -, h⟩
  · exact .inl h
  · exact .inr ⟨id, _, h⟩

theorem textPart_short {t : Option Segment} {ps : List FStringPart}
    (h : TextPart t ps) : ps = [] ∨ ∃ id s, ps = [.string id s] := by
  cases t with
  | none => exact .inl h
  | some s =>
    obtain ⟨id, h⟩ := h
    exact .inr ⟨id, _, h⟩

theorem decoded_parts (f : FStr u ext) : ∀ {ps : List FStringPart}, f.Decoded ps →
    (f.Parts ps ↔ f.TextsKept) := by
  induction f with
  | last t =>
    intro ps h
    exact decodedPart_text h
  | more t e f ih =>
    intro ps h
    obtain ⟨qs, id, e', rs, rfl, hqs, hise, hlooks, hrs⟩ := h
    constructor
    · rintro ⟨qs', id', e'', rs', heq, hqs', -, hrs'⟩
      obtain ⟨rfl, rfl⟩ := parts_split heq (decodedPart_short hqs) (textPart_short hqs')
      exact ⟨(decodedPart_text hqs).mp hqs', hlooks, (ih hrs).mp hrs'⟩
    · rintro ⟨ht, -, hf⟩
      exact ⟨qs, id, e', rs, rfl, (decodedPart_text hqs).mpr ht, hise, (ih hrs).mpr hf⟩

theorem decodes_of_kept (f : FStr u ext) (h : f.TextsKept) : f.Decodes := by
  have hpart : ∀ t, TextKept ext t → DecodesPart ext t := by
    intro t ht
    cases t with
    | none => exact .inl rfl
    | some s => exact .inr ⟨s.text, (ht s rfl).2⟩
  induction f with
  | last t => exact hpart t h
  | more t e f ih => exact ⟨hpart t h.1, h.2.1, ih h.2.2⟩

/-- The parser gives the texts back if and only if it makes them of what is written. -/
theorem parses_iff (f : FStr u ext) :
    (∃ least, ∀ depth ≥ least, ∀ more id, ∃ id' id'' ps,
      Parse.fString ext depth ⟨f.tokens ++ more, id⟩ = .ok (.fString id' ps, ⟨more, id''⟩) ∧
        f.Parts ps) ↔ f.TextsKept := by
  have hstart : ∀ d more id, Parse.fString ext (d + 1) ⟨f.tokens ++ more, id⟩ =
      Parse.fStringLoop ext d [] ⟨f.bodyTokens ++ more, id⟩ := by
    intro d more id
    rw [Parse.fString]
    exact Parse.bind_ok (take_ok .fStringStart (f.bodyTokens ++ more) id) _
  obtain ⟨least, hrun⟩ := f.fStringLoop_run
  constructor
  · rintro ⟨least', h⟩
    obtain ⟨id', id'', ps, hps, hparts⟩ := h (max least least' + 1) (by omega) [] 0
    rw [hstart] at hps
    rcases hrun _ (le_max_left least least') [] [] 0 with ⟨id₁, id₂, ps', hps', hdec⟩ | ⟨⟨e, he⟩, -⟩
    · rw [hps] at hps'
      have heq : ps = ps' := by
        have hinj := (Prod.mk.inj (Except.ok.inj hps')).1
        exact (Ast.Expr.fString.inj hinj).2
      subst heq
      exact (f.decoded_parts hdec).mp hparts
    · rw [hps] at he
      cases he
  · intro hkept
    refine ⟨least + 1, fun depth hdepth more id => ?_⟩
    obtain ⟨d, rfl⟩ : ∃ d, depth = d + 1 := ⟨depth - 1, by omega⟩
    rw [hstart]
    rcases hrun d (by omega) [] more id with ⟨id', id'', ps, hps, hdec⟩ | ⟨-, hnot⟩
    · exact ⟨id', id'', ps, hps, (f.decoded_parts hdec).mpr hkept⟩
    · exact absurd (f.decodes_of_kept hkept) hnot

theorem good_iff (hext : UnescapesStr ext.unescapeStr) (f : FStr u ext) :
    f.Good ↔ f.Ascii ∧ f.TextsKept := by
  have hpart : ∀ t : Option Segment, (∀ s ∈ t, Kept s) ↔
      (∀ c ∈ (segment t).written, Text.IsAscii c) ∧ TextKept ext t := by
    intro t
    cases t with
    | none => exact ⟨fun _ => ⟨fun c hc => (nomatch hc), fun s hs => (nomatch hs)⟩,
        fun _ s hs => (nomatch hs)⟩
    | some s =>
      constructor
      · intro h
        have hs := h s rfl
        refine ⟨(written_ascii_iff s).mpr hs.ascii, fun s' hs' => ?_⟩
        obtain rfl := Option.some.inj hs'
        exact ⟨hs.ne_nil, (fStringText_iff hext s).mpr ⟨hs.cr, hs.braces⟩⟩
      · rintro ⟨hascii, hkept⟩ s' hs'
        obtain rfl := Option.some.inj hs'
        obtain ⟨hne, htext⟩ := hkept s rfl
        obtain ⟨hcr, hbraces⟩ := (fStringText_iff hext s).mp htext
        exact ⟨hne, (written_ascii_iff s).mp hascii, hcr, hbraces⟩
  induction f with
  | last t => exact hpart t
  | more t e f ih =>
    have ht := hpart t
    constructor
    · rintro ⟨h1, hlooks, h2⟩
      obtain ⟨ha, hk⟩ := ht.mp h1
      obtain ⟨hfa, hfk⟩ := ih.mp h2
      exact ⟨⟨ha, hfa⟩, hk, hlooks, hfk⟩
    · rintro ⟨⟨ha, hfa⟩, hk, hlooks, hfk⟩
      exact ⟨ht.mpr ⟨ha, hk⟩, hlooks, ih.mpr ⟨hfa, hfk⟩⟩

theorem gives_back_iff (hext : UnescapesStr ext.unescapeStr) (f : FStr u ext) :
    f.GivesBack ↔ f.Good := by
  rw [good_iff hext, ← source_lexes_iff, ← parses_iff]
  exact ⟨fun h => ⟨h.lexes, h.parses⟩, fun h => ⟨h.1, h.2⟩⟩

theorem atom_fString (d : ℕ) (r : Restrictions) (toks : List Taken) (id : MetaId) :
    Parse.atom ext (d + 1) r ⟨.token .fStringStart :: toks, id⟩ =
      Parse.fString ext d ⟨.token .fStringStart :: toks, id⟩ := by
  rw [Parse.atom]
  rfl

/-- An f-string between braces is an expression of the f-string around it. -/
def nested (f : FStr u ext) (h : f.GivesBack) : Interpolation u ext where
  text := f.source
  tokens := f.tokens
  IsExpr e := ∃ id ps, e = .fString id ps ∧ f.Parts ps
  looksBehind := False
  apart := by simp [source]
  lexes n rest := by
    obtain ⟨span, hnext⟩ := next_brace u (.inr ⟨rfl, rfl⟩) rest n
    exact lexes_append (h.lexes n ('}' :: rest)) (.token hnext (.done _))
  parses := by
    obtain ⟨least, hparses⟩ := h.parses
    refine ⟨least + 5, fun depth hdepth more id => ?_⟩
    obtain ⟨d, rfl⟩ : ∃ d, depth = d + 5 := ⟨depth - 5, by omega⟩
    obtain ⟨id', id'', ps, hps, hparts⟩ := hparses d (by omega) (.token .curlyRight :: more) id
    refine .inl ⟨.fString id' ps, id'', ?_, ⟨id', ps, rfl, hparts⟩, not_false⟩
    have hstop : Parse.Stops (.token .curlyRight :: more) := by
      intro t rest heq
      obtain rfl := Taken.token.inj (List.cons.inj heq).1
      rfl
    exact Parse.assignExpr_of_atom (by decide) (by decide) hstop
      ((atom_fString d ⟨false⟩ (f.bodyTokens ++ .token .curlyRight :: more) id).trans hps)

theorem next_space (u : Unicode) (tail : Text) (n : ℕ) :
    next u ⟨' ' :: tail, n, []⟩ = next u ⟨tail, n, []⟩ := by
  have hskip := skipWhitespace_eq ⟨' ' :: tail, n, []⟩
  have hskip' := skipWhitespace_eq ⟨tail, n, []⟩
  have hloop : skipLoop false (' ' :: tail) = skipLoop false tail := rfl
  show nextInner u _ = nextInner u _
  unfold nextInner
  rw [hskip, hskip', hloop]

theorem assignExpr_error {t : Token} {e : ParseError} {depth : ℕ} {r : Restrictions}
    {toks : List Taken} {id : MetaId} (hbang : t ≠ .bang) (hhyphen : t ≠ .hyphen)
    (hatom : Parse.atom ext (depth + 1) r ⟨.token t :: toks, id⟩ = .error e) :
    Parse.assignExpr ext (depth + 5) r ⟨.token t :: toks, id⟩ = .error e := by
  have haccess : Parse.access ext (depth + 2) r ⟨.token t :: toks, id⟩ = .error e := by
    rw [Parse.access]
    exact bind_error hatom _
  have hnegation : Parse.negation ext (depth + 3) r ⟨.token t :: toks, id⟩ = .error e := by
    have hbang' : (Taken.token t :: toks).head? ≠ some (.token .bang) := by simpa using hbang
    have hhyphen' : (Taken.token t :: toks).head? ≠ some (.token .hyphen) := by
      simpa using hhyphen
    rw [Parse.negation, Parse.bind_ok (Parse.peekIs_eq _ _), decide_eq_false hbang']
    simp only [Bool.false_eq_true, if_false]
    rw [Parse.bind_ok (Parse.peekIs_eq _ _), decide_eq_false hhyphen']
    simp only [Bool.false_eq_true, if_false]
    exact haccess
  have hbinop : Parse.binopExpr ext (depth + 4) none r ⟨.token t :: toks, id⟩ = .error e := by
    rw [Parse.binopExpr]
    exact bind_error hnegation _
  rw [Parse.assignExpr]
  exact bind_error hbinop _

/-- A block with an f-string in front makes the parser look at a third token. -/
theorem atom_block (d : ℕ) (r : Restrictions) (toks : List Taken) (id : MetaId) :
    Parse.atom ext (d + 1) r ⟨.token .curlyLeft :: .token .fStringStart :: toks, id⟩ =
      .error .lexedText := by
  rw [Parse.atom]
  rfl

/-- An f-string alone in a block between braces. -/
def inBlock (f : FStr u ext) (h : f.GivesBack) : Interpolation u ext where
  text := ' ' :: '{' :: (f.source ++ ['}'])
  tokens := .token .curlyLeft :: (f.tokens ++ [.token .curlyRight])
  IsExpr e := ∃ id id' id'' ps, e = .block id (.mk id' [] (some (.fString id'' ps))) ∧ f.Parts ps
  looksBehind := True
  apart := by simp
  lexes n rest := by
    obtain ⟨span, hleft⟩ := next_brace u (.inl ⟨rfl, rfl⟩)
      (f.source ++ '}' :: ('}' :: rest)) n
    obtain ⟨span', hright⟩ := next_brace u (.inr ⟨rfl, rfl⟩) ('}' :: rest) n
    obtain ⟨span'', hlast⟩ := next_brace u (.inr ⟨rfl, rfl⟩) rest n
    have htext : ' ' :: '{' :: (f.source ++ ['}']) ++ '}' :: rest =
        ' ' :: '{' :: (f.source ++ '}' :: ('}' :: rest)) := by simp
    have htokens : .token .curlyLeft :: (f.tokens ++ [.token .curlyRight]) ++ [.token .curlyRight] =
        .token .curlyLeft :: (f.tokens ++ [.token .curlyRight, .token .curlyRight]) := by simp
    rw [htext, htokens]
    exact .token ((next_space u _ n).trans hleft)
      (lexes_append (h.lexes n _) (.token hright (.token hlast (.done _))))
  parses := by
    refine ⟨5, fun depth hdepth more id => .inr ⟨?_, trivial⟩⟩
    obtain ⟨d, rfl⟩ : ∃ d, depth = d + 5 := ⟨depth - 5, by omega⟩
    exact assignExpr_error (by decide) (by decide) (atom_block d _ _ id)

theorem not_givesBack_inBlock (hext : UnescapesStr ext.unescapeStr) (f : FStr u ext)
    (h : f.GivesBack) (t : Option Segment) (rest : FStr u ext) :
    ¬ (more t (inBlock f h) rest).GivesBack := fun hgives =>
  ((good_iff hext _).mpr
    ⟨(source_lexes_iff _).mp hgives.lexes, (parses_iff _).mp hgives.parses⟩).2.1 trivial

/-! ### Two f-strings -/

/-- The character that digits spell. -/
def spelled (ds : Text) : Option Char :=
  let c := Char.ofNat ((ds.filter fun d => d ≠ '_').foldl (fun n d => 16 * n + hexDigit d) 0)
  if spells ds c then some c else none

/-- The escapes `\"`, `\\` and `\u`; within the braces of the last, the digits so far come last
first. -/
def unescape : Option Text → Text → Except String Text
  | none, [] => .ok []
  | some _, [] => .error "unterminated escape"
  | some ds, c :: s =>
    if c = '}' then
      match spelled ds.reverse with
      | some x => (unescape none s).map (x :: ·)
      | none => .error "invalid escape"
    else unescape (some (c :: ds)) s
  | none, c :: s =>
    if c = '\\' then
      match s with
      | '"' :: s => (unescape none s).map ('"' :: ·)
      | '\\' :: s => (unescape none s).map ('\\' :: ·)
      | 'u' :: '{' :: s => unescape (some []) s
      | _ => .error "unknown escape"
    else if c = '"' ∨ c = '\r' then .error "must be escaped"
    else (unescape none s).map (c :: ·)

theorem unescape_digits (ds : Text) : ∀ (acc s : Text),
    (∀ d ∈ ds, isAsciiHexdigit d = true ∨ d = '_') →
    unescape (some acc) (ds ++ '}' :: s) = unescape (some (ds.reverse ++ acc)) ('}' :: s) := by
  induction ds with
  | nil =>
    intro acc s _
    rfl
  | cons d ds ih =>
    intro acc s h
    obtain ⟨hd, hds⟩ := List.forall_mem_cons.mp h
    rw [List.cons_append, unescape, if_neg (ne_curlyRight_of_digit hd), ih _ _ hds]
    simp

theorem spelled_of_spells {ds : Text} {c : Char} (h : spells ds c = true) : spelled ds = some c := by
  have hvalue : (ds.filter fun d => d ≠ '_').foldl (fun n d => 16 * n + hexDigit d) 0 = c.toNat := by
    simp only [spells, Bool.and_eq_true, decide_eq_true_eq] at h
    exact h.2
  unfold spelled
  rw [hvalue, Char.ofNat_toNat]
  exact if_pos h

theorem unescape_unescapes : UnescapesStr (unescape none) where
  nil := rfl
  plain c s h1 h2 h3 := by
    rw [unescape.eq_def]
    simp [h1, h2, h3]
  quote s := rfl
  backslash s := rfl
  unicode ds c s h := by
    show unescape (some []) (ds ++ '}' :: s) = _
    rw [unescape_digits ds [] s (digits_of_spells h), unescape, if_pos rfl, List.append_nil,
      List.reverse_reverse, spelled_of_spells h]
  bareCr s := by
    refine ⟨"must be escaped", ?_⟩
    rw [unescape.eq_def]
    simp

def noUnicode : Unicode := ⟨fun _ => false, fun _ => false⟩

def onlyStrings : Externals where
  parseF64 _ := .error "no floats"
  parseIpv4 _ := .error "no addresses"
  parseIpv6 _ := .error "no addresses"
  unescapeStr := unescape none
  unescapeChar _ := .error "no characters"

def plain (c : Char) : Letter := ⟨c, none, fun _ h => nomatch h⟩

def escapedBrace : Letter := ⟨'{', some ['7', 'b'], fun _ h => by cases h; decide⟩

/-- `f"b"`. -/
def innerString : FStr noUnicode onlyStrings := .last (some [plain 'b'])

theorem innerString_good : innerString.Good := by
  rintro s hs
  obtain rfl := Option.some.inj hs
  refine ⟨by simp, ?_, ?_, rfl⟩
  · intro l hl
    rw [List.mem_singleton.mp hl]
    exact fun _ => by decide
  · intro l hl
    rw [List.mem_singleton.mp hl]
    exact fun _ => by decide

/-- `f"{{\u{7b}{f"b"}"`. -/
theorem gives_back_nested :
    (FStr.more (some [plain '{', escapedBrace])
      (nested innerString ((gives_back_iff unescape_unescapes innerString).mpr innerString_good))
      (.last none)).GivesBack := by
  refine (gives_back_iff unescape_unescapes _).mpr ⟨?_, not_false, fun s hs => (nomatch hs)⟩
  rintro s hs
  obtain rfl := Option.some.inj hs
  refine ⟨by simp, ?_, ?_, rfl⟩
  · intro l hl
    simp only [List.mem_cons, List.not_mem_nil, or_false] at hl
    rcases hl with rfl | rfl
    · exact fun _ => by decide
    · exact fun h => (nomatch h)
  · intro l hl
    simp only [List.mem_cons, List.not_mem_nil, or_false] at hl
    rcases hl with rfl | rfl
    · exact fun _ => by decide
    · exact fun h => (nomatch h)

/-- `f"\u{7b}\u{7b}"` is one brace, and `f"é"` is a panic. -/
theorem escaped_braces_collapse :
    Parse.fStringText onlyStrings (Segment.written [escapedBrace, escapedBrace]) = .ok ['{'] ∧
      ¬ (FStr.last (some [escapedBrace, escapedBrace]) :
        FStr noUnicode onlyStrings).GivesBack ∧
      fStringPart ⟨Segment.written [plain 'é'] ++ ['"'], 3, []⟩ = none ∧
      ¬ (FStr.last (some [plain 'é']) : FStr noUnicode onlyStrings).GivesBack := by
  have htext : Parse.fStringText onlyStrings (Segment.written [escapedBrace, escapedBrace]) =
      .ok ['{'] := rfl
  refine ⟨htext, fun h => ?_, rfl, fun h => ?_⟩
  · have hkept := ((parses_iff _).mp h.parses) _ rfl
    rw [htext] at hkept
    cases hkept.2
  · have hascii := (source_lexes_iff _).mp h.lexes
    exact absurd (hascii 'é' (List.mem_cons_self : 'é' ∈ ['é'])) (by decide)

end FStr

end Roto.Parser
