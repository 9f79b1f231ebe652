import RotoCompiler.Parser.Lexer

/-!
# Calls of the lexer (parser/mod.rs, parser/expr.rs)

What the parser can ask of the lexer, call by call. It peeks ahead further than one token
only for a `{` at the start of an atom: two tokens, then three unless these were `{}`, and
then it takes the `{`. It asks for a part of an f-string only right after taking the start
of an f-string or a `}`.
-/

namespace Roto.Parser
open Lib

inductive Op where
  | skipShebang
  | next
  | peek
  | peekMany (n : ℕ)
  | fStringPart
  deriving DecidableEq, Repr

inductive Out where
  | unit
  | token (t : Option Lexed)
  | peeked (t : Option Lexed)
  | many (ts : Option (List Token))
  | part (p : Option (FStringToken × Span))
  deriving DecidableEq, Repr

def step (u : Unicode) (l : Lexer) : Op → Option (Out × Lexer)
  | .skipShebang => (skipShebang l).map fun l => (.unit, l)
  | .next => (next u l).map fun r => (.token r.1, r.2)
  | .peek => (peek u l).map fun r => (.peeked r.1, r.2)
  | .peekMany n => (peekMany u n l).map fun r => (.many r.1, r.2)
  | .fStringPart => (fStringPart l).map fun r => (.part r.1, r.2)

/-- What the parser did last, as far as it matters for what it may do next. -/
inductive Mode where
  | start | free | sawCurly | peekedTwo | mustNext | inFString
  deriving DecidableEq, Repr

def Mode.allows : Mode → Op → Bool
  | .start, .skipShebang => true
  | .start, .next | .start, .peek => true
  | .free, .next | .free, .peek => true
  | .sawCurly, .next | .sawCurly, .peek => true
  | .sawCurly, .peekMany n => n = 2
  | .peekedTwo, .peekMany n => n = 3
  | .mustNext, .next => true
  | .inFString, .next | .inFString, .peek | .inFString, .fStringPart => true
  | _, _ => false

/-- After these tokens the text of an f-string may follow. -/
def Token.isStop (t : Token) : Bool := t = .fStringStart || t = .curlyRight

def Lexed.isStop (t : Lexed) : Bool := t.1.any Token.isStop

def Mode.after (op : Op) (out : Out) : Mode :=
  match op, out with
  | .next, .token (some t) => if t.isStop then .inFString else .free
  | .peek, .peeked (some (some .curlyLeft, _)) => .sawCurly
  | .peekMany 2, .many (some [.curlyLeft, .curlyRight]) => .mustNext
  | .peekMany 2, _ => .peekedTwo
  | .peekMany _, _ => .mustNext
  | _, _ => .free

end Roto.Parser
