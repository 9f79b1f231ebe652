import RotoCompiler.Lib.Utf8

/-!
# The lexer (parser/lexer.rs, parser/token.rs)

The sub-lexers cut byte counts off the remaining input; a cut inside a character or past
the end is a panic. Whether a character may be in an identifier is decided by the crate
`unicode_ident`, a parameter here. `almost_keyword`, which only feeds a hint of an error
message, is left out.
-/

namespace Roto.Parser
open Lib
open String (utf8Len)

inductive Keyword where
  | accept | const | dep | else_ | enum | filter | filterMap | for_ | fn | if_ | import_ | in_
  | let_ | match_ | pkg | record | reject | return_ | std | super | test | while_
  deriving DecidableEq, Repr

inductive Token where
  | ident (s : Text)
  | ampAmp | angleLeftEq | angleRightEq | arrow | bang | bangEq | colon | comma | eq | eqEq
  | fatArrow | hash | hyphen | hyphenHyphen | period | pipe | pipePipe | plus | questionMark
  | semiColon | slash | slashStar | star | percent | plusEq | minusEq | starEq | slashEq
  | percentEq
  | angleLeft | angleRight | curlyLeft | curlyRight | roundLeft | roundRight | squareLeft
  | squareRight
  | keyword (kw : Keyword)
  | string (s : Text)
  | char (s : Text)
  | integer (num suffix : Text)
  | float (num suffix : Text)
  | hex (s : Text)
  | asn (s : Text)
  | ipV4 (s : Text)
  | ipV6 (s : Text)
  | bool (b : Bool)
  | fStringStart
  deriving DecidableEq, Repr

inductive FStringToken where
  | stringEnd (s : Text)
  | stringIntermediate (s : Text)
  deriving DecidableEq, Repr

structure Span where
  start : ℕ
  stop : ℕ
  deriving DecidableEq, Repr

/-- `is_xid_start` and `is_xid_continue` of `unicode_ident`. -/
structure Unicode where
  isXidStart : Char → Bool
  isXidContinue : Char → Bool

/-- A token or an invalid one, with its span. -/
abbrev Lexed := Option Token × Span

structure Lexer where
  input : Text
  originalLength : ℕ
  peeked : List Lexed
  deriving DecidableEq, Repr

/-! ### Eating characters off a tail (StrExt) -/

def eatChar (c : Char) : Text → Bool × Text
  | x :: tail => if x = c then (true, tail) else (false, x :: tail)
  | [] => (false, [])

def eatStr (s : String) (tail : Text) : Bool × Text :=
  if s.toList.isPrefixOf tail then (true, tail.drop s.toList.length) else (false, tail)

def eatOneOf (options : List Char) : Text → Bool × Text
  | x :: tail => if x ∈ options then (true, tail) else (false, x :: tail)
  | [] => (false, [])

def eatWhile (p : Char → Bool) (tail : Text) : Bool × Text :=
  let new := tail.dropWhile p
  (decide (tail.length ≠ new.length), new)

/-- `eat_until`: the text after the first `c`, or nothing. -/
def eatUntil (c : Char) (tail : Text) : Text := (tail.dropWhile fun x => x ≠ c).tail

/-- `eat_until_fn` with the closure of `string` and `char`: the text after the first
`quote` that no backslash escapes. -/
def eatUntilQuote (quote : Char) (lastIsBackslash : Bool) : Text → Text
  | [] => []
  | c :: tail =>
    if lastIsBackslash then eatUntilQuote quote false tail
    else if c = quote then tail
    else eatUntilQuote quote (c = '\\') tail

/-- `char::is_whitespace`. -/
def isWhitespace (c : Char) : Bool :=
  c.toNat ∈ [0x20, 0x85, 0xA0, 0x1680, 0x2028, 0x2029, 0x202F, 0x205F, 0x3000] ||
    (0x09 ≤ c.toNat && c.toNat ≤ 0x0D) || (0x2000 ≤ c.toNat && c.toNat ≤ 0x200A)

def isAsciiDigit (c : Char) : Bool := '0' ≤ c && c ≤ '9'

def isAsciiHexdigit (c : Char) : Bool :=
  isAsciiDigit c || ('a' ≤ c && c ≤ 'f') || ('A' ≤ c && c ≤ 'F')

def isRotoDigit (c : Char) : Bool := isAsciiDigit c || c = '_'

/-! ### Cutting the input -/

namespace Lexer

def new (input : Text) : Lexer := ⟨input, utf8Len input, []⟩

/-- `bump`; `none` is the panic of `split_at`. -/
def bump (l : Lexer) (n : ℕ) : Option ((Text × Span) × Lexer) := do
  let start := l.originalLength - utf8Len l.input
  let (a, b) ← Text.splitAt l.input n
  let stop := l.originalLength - utf8Len b
  return ((a, ⟨start, stop⟩), { l with input := b })

def bumpTo (l : Lexer) (tail : Text) : Option ((Text × Span) × Lexer) :=
  l.bump (utf8Len l.input - utf8Len tail)

end Lexer

/-- `ControlFlow`: go on with the next sub-lexer, or break with a token. -/
inductive Flow where
  | cont
  | brk (token : Token) (span : Span) (l : Lexer)

/-- A sub-lexer; `none` is a panic. -/
abbrev SubLexer := Lexer → Option Flow

/-- Break with the token made of what is before the tail. -/
def brkTo (l : Lexer) (tail : Text) (token : Text → Token) : Option Flow := do
  let ((tok, span), l) ← l.bumpTo tail
  return .brk (token tok) span l

/-! ### Sub-lexers -/

def twoChars : List (Char × Char × Token) :=
  [('=', '=', .eqEq), ('!', '=', .bangEq), ('&', '&', .ampAmp), ('|', '|', .pipePipe),
    ('>', '=', .angleRightEq), ('<', '=', .angleLeftEq), ('-', '>', .arrow), ('=', '>', .fatArrow),
    ('+', '=', .plusEq), ('-', '=', .minusEq), ('*', '=', .starEq), ('/', '=', .slashEq),
    ('%', '=', .percentEq), ('/', '*', .slashStar), ('-', '-', .hyphenHyphen)]

def oneChars : List (Char × Token) :=
  [('=', .eq), ('|', .pipe), ('-', .hyphen), (':', .colon), (';', .semiColon), (',', .comma),
    ('.', .period), ('+', .plus), ('*', .star), ('/', .slash), ('!', .bang), ('{', .curlyLeft),
    ('}', .curlyRight), ('?', .questionMark), ('[', .squareLeft), (']', .squareRight),
    ('(', .roundLeft), (')', .roundRight), ('<', .angleLeft), ('>', .angleRight),
    ('%', .percent), ('#', .hash)]

/-- It looks at the first two bytes, not characters. -/
def twoCharPunctuation : SubLexer := fun l =>
  match Text.bytes l.input with
  | x :: y :: _ =>
    match twoChars.find? fun e => e.1.val.toUInt8 = x ∧ e.2.1.val.toUInt8 = y with
    | none => some .cont
    | some (_, _, tok) => do
      let ((_, span), l) ← l.bump 2
      return .brk tok span l
  | _ => some .cont

def oneCharPunctuation : SubLexer := fun l =>
  match Text.bytes l.input with
  | x :: _ =>
    match oneChars.find? fun e => e.1.val.toUInt8 = x with
    | none => some .cont
    | some (_, tok) => do
      let ((_, span), l) ← l.bump 1
      return .brk tok span l
  | _ => some .cont

/-- The loop of `ipv6` (which does not look whether it ate a digit) and `ipv4`. -/
def eatGroups (digit : Char → Bool) (needDigit : Bool) (sep : Char) : ℕ → Text → Option Text
  | 0, tail => some tail
  | count + 1, tail =>
    let (ate, tail) := eatWhile digit tail
    if needDigit && !ate then none
    else
      let (ateSep, tail) := eatChar sep tail
      if !ateSep then none else eatGroups digit needDigit sep count tail

def ipv6 : SubLexer := fun l =>
  match eatGroups isAsciiHexdigit false ':' 2 l.input with
  | none => some .cont
  | some tail => brkTo l (eatWhile (fun c => isAsciiHexdigit c || c = ':') tail).2 .ipV6

def ipv4 : SubLexer := fun l =>
  match eatGroups isAsciiDigit true '.' 3 l.input with
  | none => some .cont
  | some tail => brkTo l (eatWhile isAsciiDigit tail).2 .ipV4

def asNumber : SubLexer := fun l =>
  let (ate, tail) := eatStr "AS" l.input
  if !ate then some .cont
  else
    let (ateDigits, tail) := eatWhile isAsciiDigit tail
    if !ateDigits then some .cont else brkTo l tail .asn

def hexNumber : SubLexer := fun l =>
  let (ate, tail) := eatStr "0x" l.input
  if !ate then some .cont else brkTo l (eatWhile isAsciiHexdigit tail).2 .hex

/-- The block `'float` of `number`: whether the literal is a float, and the tail. -/
def floatPart (u : Unicode) (tail : Text) : Bool × Text :=
  let exponent (isFloat : Bool) (tail : Text) : Bool × Text :=
    let (ate, tail) := eatOneOf ['e', 'E'] tail
    if ate then (true, (eatWhile isRotoDigit (eatOneOf ['+', '-'] tail).2).2) else (isFloat, tail)
  match tail with
  | '.' :: c :: rest =>
    -- `10..`, `10._hello` and `10.hello` start with an integer
    if u.isXidStart c || c = '.' || c = '_' then (false, tail)
    else exponent true (eatWhile isRotoDigit (c :: rest)).2
  | ['.'] => exponent true []
  | tail => exponent false tail

def number (u : Unicode) : SubLexer := fun l =>
  match l.input with
  | [] => some .cont
  | first :: _ =>
    if !isAsciiDigit first then some .cont
    else
      let (isFloat, tail) := floatPart u (eatWhile isRotoDigit l.input).2
      let length := utf8Len l.input - utf8Len tail
      let tail := (eatWhile (fun c => u.isXidContinue c || c = '_') tail).2
      do
        let ((tok, span), l) ← l.bumpTo tail
        let (num, suffix) ← Text.splitAt tok length
        return .brk (if isFloat then .float num suffix else .integer num suffix) span l

def fString : SubLexer := fun l =>
  let (ate, tail) := eatStr "f\"" l.input
  if !ate then some .cont else brkTo l tail fun _ => .fStringStart

/-- `char` and `string`: an unterminated literal is no token. -/
def quoted (quote : Char) (token : Text → Token) : SubLexer := fun l =>
  let (ate, tail) := eatChar quote l.input
  if !ate then some .cont
  else
    let tail := eatUntilQuote quote false tail
    if tail.isEmpty then some .cont else brkTo l tail token

def char : SubLexer := quoted '\'' .char
def string : SubLexer := quoted '"' .string

def keywords : List (String × Token) :=
  [("accept", .keyword .accept), ("const", .keyword .const), ("dep", .keyword .dep),
    ("else", .keyword .else_), ("enum", .keyword .enum), ("filter", .keyword .filter),
    ("filtermap", .keyword .filterMap), ("for", .keyword .for_), ("fn", .keyword .fn),
    ("if", .keyword .if_), ("import", .keyword .import_), ("in", .keyword .in_),
    ("let", .keyword .let_), ("match", .keyword .match_), ("pkg", .keyword .pkg),
    ("record", .keyword .record), ("reject", .keyword .reject), ("return", .keyword .return_),
    ("std", .keyword .std), ("super", .keyword .super), ("test", .keyword .test),
    ("while", .keyword .while_), ("true", .bool true), ("false", .bool false)]

def keywordToken (ident : Text) : Token :=
  match keywords.find? fun k => k.1.toList = ident with
  | some (_, tok) => tok
  | none => .ident ident

/-- The first character is cut off as one byte. -/
def keywordOrIdent (u : Unicode) : SubLexer := fun l =>
  match l.input with
  | [] => some .cont
  | c :: _ =>
    if !(u.isXidStart c || c = '_') then some .cont
    else do
      let (_, tail) ← Text.splitAt l.input 1
      brkTo l (eatWhile u.isXidContinue tail).2 keywordToken

/-! ### Tokens -/

/-- The loop of `skip_whitespace`, in white space or in a comment. -/
def skipLoop (comment : Bool) : Text → Text
  | [] => []
  | c :: tail =>
    if comment then (if c = '\n' then skipLoop false tail else skipLoop true tail)
    else if isWhitespace c then skipLoop false tail
    else if c = '/' ∧ tail.head? = some '/' then skipLoop true tail
    else c :: tail

def skipWhitespace (l : Lexer) : Option Lexer :=
  let tail := skipLoop false l.input
  if utf8Len tail < utf8Len l.input then (l.bumpTo tail).map (·.2) else some l

def skipShebang (l : Lexer) : Option Lexer :=
  match eatStr "#!" l.input with
  | (true, c :: tail) =>
    if !isWhitespace c then (l.bumpTo (eatUntil '\n' (c :: tail))).map (·.2) else some l
  | _ => some l

def firstOf : List SubLexer → SubLexer
  | [], _ => some .cont
  | f :: fs, l =>
    match f l with
    | some .cont => firstOf fs l
    | r => r

def subLexers (u : Unicode) : List SubLexer :=
  [ipv6, ipv4, twoCharPunctuation, oneCharPunctuation, asNumber, hexNumber, number u, fString,
    string, char, keywordOrIdent u]

/-- `next_inner`, with `next_token`. An invalid token is not cut off. -/
def nextInner (u : Unicode) (l : Lexer) : Option (Option Lexed × Lexer) := do
  let l ← skipWhitespace l
  if l.input.isEmpty then return (none, l)
  match ← firstOf (subLexers u) l with
  | .brk tok span l => return (some (some tok, span), l)
  | .cont =>
    let start := l.originalLength - utf8Len l.input
    return (some (none, ⟨start, start + 1⟩), l)

def next (u : Unicode) (l : Lexer) : Option (Option Lexed × Lexer) :=
  match l.peeked with
  | t :: peeked => some (some t, { l with peeked := peeked })
  | [] => nextInner u l

def peek (u : Unicode) (l : Lexer) : Option (Option Lexed × Lexer) :=
  match l.peeked with
  | t :: _ => some (some t, l)
  | [] => do
    match ← nextInner u l with
    | (some t, l) => return (some t, { l with peeked := [t] })
    | (none, l) => return (none, l)

/-- The loop of `peek_many`: whether there were enough tokens. -/
def fill (u : Unicode) : ℕ → Lexer → Option (Bool × Lexer)
  | 0, l => some (true, l)
  | n + 1, l => do
    match ← nextInner u l with
    | (some t, l) => fill u n { l with peeked := l.peeked ++ [t] }
    | (none, l) => return (false, l)

/-- `peek_many`; more peeked tokens than asked for make the subtraction overflow. -/
def peekMany (u : Unicode) (n : ℕ) (l : Lexer) : Option (Option (List Token) × Lexer) :=
  if n < l.peeked.length then none
  else do
    let (enough, l) ← fill u (n - l.peeked.length) l
    return (if enough then l.peeked.mapM (·.1) else none, l)

/-! ### Parts of f-strings -/

/-- Where the loop of `f_string_part` stands: in the text, after a backslash, after `\u`,
in the digits of `\u{`, or after a `{`. -/
inductive ScanMode where
  | outer | escape | unicode | digits | curly
  deriving DecidableEq, Repr

/-- Where a part ends, as the loop counts: in characters. -/
inductive PartEnd where
  | curly (i : ℕ)
  | quote (i : ℕ)
  deriving DecidableEq, Repr

def fStringScan : ScanMode → ℕ → Text → Option PartEnd
  | _, _, [] => none
  | .outer, i, c :: tail =>
    if c = '\\' then fStringScan .escape (i + 1) tail
    else if c = '{' then fStringScan .curly (i + 1) tail
    else if c = '"' then some (.quote i)
    else fStringScan .outer (i + 1) tail
  | .escape, i, c :: tail =>
    if c = 'u' ∨ c = 'U' then fStringScan .unicode (i + 1) tail
    else fStringScan .outer (i + 1) tail
  | .unicode, i, c :: tail => if c = '{' then fStringScan .digits (i + 1) tail else none
  | .digits, i, c :: tail =>
    if c = '}' then fStringScan .outer (i + 1) tail else fStringScan .digits (i + 1) tail
  | .curly, i, c :: tail =>
    if c = '{' then fStringScan .outer (i + 1) tail else some (.curly i)

/-- `f_string_part`. The count of characters is cut off as a count of bytes. -/
def fStringPart (l : Lexer) : Option (Option (FStringToken × Span) × Lexer) :=
  match fStringScan .outer 0 l.input with
  | none => some (none, l)
  | some (.curly i) => do
    let ((tok, span), l) ← l.bump (i - 1)
    return (some (.stringIntermediate tok, span), l)
  | some (.quote i) => do
    let ((tok, span), l) ← l.bump i
    let (_, l) ← l.bump 1
    return (some (.stringEnd tok, span), l)

end Roto.Parser
