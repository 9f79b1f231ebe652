import RotoCompiler.Parser.Literals
import RotoCompiler.Parser.Operators

/-!
# Parsing of expressions (parser/mod.rs, parser/expr.rs)

The parser runs on the tokens that it takes off the lexer, with the parts of f-strings among
them. An id is given to each node, counting up; spans are left out. Escapes in strings and
the parsing of floats and addresses are parameters. Each function that calls itself has an
upper bound for the depth of calls, and the loops have one for their rounds.
-/

namespace Roto.Parser
open Ast (Literal BinOp CompoundAssignOp ReturnKind Path Pattern Block Stmt MatchArm FStringPart
  FloatType)
open Lib

/-- What the parser takes off the lexer: a token, something that is no token, or a part of an
f-string. -/
inductive Taken where
  | token (t : Token)
  | invalid
  | fString (part : FStringToken)
  deriving DecidableEq, Repr

inductive ParseError where
  | endOfInput
  | invalidToken
  | expected (expected got : String) (note : Option String)
  | custom (description label : String) (note : Option String)
  | invalidLiteral (e : InvalidLiteral)
  /-- There is no such error in the source: the bound is too small. -/
  | tooDeep
  /-- Nor is there this one: a token has been lexed out of the text of an f-string, and what the
  lexer gives from here on is not what the list has. -/
  | lexedText
  deriving DecidableEq, Repr

/-- `Display` for tokens. -/
def Token.display : Token → String
  | .ident s | .string s | .char s | .hex s | .asn s | .ipV4 s | .ipV6 s => String.ofList s
  | .integer s suffix | .float s suffix => String.ofList (s ++ suffix)
  | .ampAmp => "&&"
  | .angleLeftEq => "<="
  | .angleRightEq => ">="
  | .arrow => "->"
  | .bang => "!"
  | .bangEq => "!="
  | .colon => ":"
  | .comma => ","
  | .eq => "="
  | .eqEq => "=="
  | .fatArrow => "=>"
  | .hash => "#"
  | .hyphen => "-"
  | .hyphenHyphen => "--"
  | .period => "."
  | .pipe => "|"
  | .pipePipe => "||"
  | .plus => "+"
  | .questionMark => "?"
  | .semiColon => ";"
  | .slash => "/"
  | .slashStar => "/*"
  | .star => "*"
  | .percent => "%"
  | .plusEq => "+="
  | .minusEq => "-="
  | .starEq => "*="
  | .slashEq => "/="
  | .percentEq => "%="
  | .angleLeft => "<"
  | .angleRight => ">"
  | .curlyLeft => "\x7b"
  | .curlyRight => "\x7d"
  | .roundLeft => "("
  | .roundRight => ")"
  | .squareLeft => "["
  | .squareRight => "]"
  | .bool true => "true"
  | .bool false => "false"
  | .fStringStart => "f\""
  | .keyword kw => ((keywords.find? fun e => e.2 == .keyword kw).map (·.1)).getD ""

/-- What comes from other crates and from the standard library. -/
structure Externals where
  parseF64 : Text → Except String ℕ
  parseIpv4 : Text → Except String ℕ
  parseIpv6 : Text → Except String ℕ
  /-- The unescaped text, or the description of the first fatal error. -/
  unescapeStr : Text → Except String Text
  unescapeChar : Text → Except String Char

structure ParserState where
  tokens : List Taken
  nextId : MetaId
  deriving DecidableEq, Repr

abbrev Parse := StateT ParserState (Except ParseError)

/-- The type expressions, as far as the parser makes them. -/
inductive TypeExpr where
  | option (inner : TypeExpr)
  | path (p : Path) (params : Option (List TypeExpr))
  | never
  | unit
  | record (fields : List (Meta Identifier × TypeExpr))

structure Restrictions where
  forbidRecords : Bool

namespace Parse

/-! ### Helper methods -/

def fail {α : Type} (e : ParseError) : Parse α := fun _ => .error e

def next : Parse Token := fun s =>
  match s.tokens with
  | .token t :: rest => .ok (t, { s with tokens := rest })
  | [] => .error .endOfInput
  | _ :: _ => .error .invalidToken

def peek : Parse (Option Token) := fun s =>
  match s.tokens with
  | .token t :: _ => .ok (some t, s)
  | _ => .ok (none, s)

/-- `peek_many`: the next `n` tokens, if there are that many. All of them are lexed as tokens,
also behind the start of an f-string. -/
def peekMany (n : ℕ) : Parse (Option (List Token)) := fun s =>
  if .token .fStringStart ∈ s.tokens.take (n - 1) then .error .lexedText
  else
    let tokens := (s.tokens.take n).filterMap fun
      | .token t => some t
      | _ => none
    .ok (if tokens.length = n then some tokens else none, s)

def peekIs (token : Token) : Parse Bool := do
  return (← peek) == some token

def nextIs (token : Token) : Parse Bool := do
  if ← peekIs token then
    let _ ← next
    return true
  else return false

def take (token : Token) : Parse Unit := do
  let t ← next
  if t = token then return () else fail (.expected token.display t.display none)

def fStringPart : Parse (Option FStringToken) := fun s =>
  match s.tokens with
  | .fString part :: rest => .ok (some part, { s with tokens := rest })
  | _ => .ok (none, s)

/-- `Spans::add`. -/
def addSpan : Parse MetaId := fun s => .ok (s.nextId, { s with nextId := s.nextId + 1 })

def add {α : Type} (node : α) : Parse (Meta α) := do
  return ⟨node, ← addSpan⟩

/-- The rounds of `separated`. -/
def separatedLoop {α : Type} (close sep : Token) (parser : Parse α) : ℕ → List α → Parse (List α)
  | 0, _ => fail .tooDeep
  | rounds + 1, items => do
    if ← nextIs sep then
      if ← peekIs close then return items
      let item ← parser
      separatedLoop close sep parser rounds (items ++ [item])
    else return items

def separated {α : Type} (rounds : ℕ) (start close sep : Token) (parser : Parse α) :
    Parse (Meta (List α)) := do
  take start
  if ← peekIs close then
    take close
    add []
  else
    let first ← parser
    let items ← separatedLoop close sep parser rounds [first]
    take close
    add items

/-! ### Identifiers, paths and types -/

def keywordNote (t : Token) : String :=
  s!"`{t.display}` is a keyword and cannot be used as an identifier."

def identifier : Parse (Meta Identifier) := do
  match ← next with
  | .ident s => add (String.ofList s)
  | .keyword kw =>
    fail (.expected "an identifier" (Token.keyword kw).display (some (keywordNote (.keyword kw))))
  | t => fail (.expected "an identifier" t.display none)

def pathItem : Parse (Meta Identifier) := do
  match ← next with
  | .keyword .pkg => add "pkg"
  | .keyword .dep => add "dep"
  | .keyword .super => add "super"
  | .ident s => add (String.ofList s)
  | t => fail (.expected "an identifier, `super`, `pkg` or `dep`" t.display (some (keywordNote t)))

/-- The loop of `path`. -/
def pathLoop : ℕ → List (Meta Identifier) → Parse (List (Meta Identifier))
  | 0, _ => fail .tooDeep
  | rounds + 1, idents => do
    if ← nextIs .period then
      let ident ← pathItem
      pathLoop rounds (idents ++ [ident])
    else return idents

def path (rounds : ℕ) : Parse Path := do
  let first ← pathItem
  let idents ← pathLoop rounds [first]
  return ⟨← addSpan, idents⟩

mutual

/-- The loop of `path_expr`, with the root so far. -/
def pathExpr : ℕ → List (Meta Identifier) → Parse (List Path)
  | 0, _ => fail .tooDeep
  | depth + 1, root => do
    if ← peekIs .curlyLeft then
      let subPaths ← pathList depth
      return subPaths.map fun p => { p with idents := root ++ p.idents }
    else
      let ident ← pathItem
      let root := root ++ [ident]
      if ← nextIs .period then pathExpr depth root
      else return [⟨← addSpan, root⟩]

def pathList : ℕ → Parse (List Path)
  | 0 => fail .tooDeep
  | depth + 1 => do
    take .curlyLeft
    let paths ← pathListLoop depth []
    take .curlyRight
    return paths

def pathListLoop : ℕ → List Path → Parse (List Path)
  | 0, _ => fail .tooDeep
  | depth + 1, paths => do
    let path ← pathExpr depth []
    let paths := paths ++ path
    if ← nextIs .comma then pathListLoop depth paths else return paths

end

def «import» (depth : ℕ) : Parse (List Path) := do
  take (.keyword .import_)
  let paths ← pathExpr depth []
  take .semiColon
  return paths

/-- The loop of `type_expr`. -/
def optionLoop : ℕ → Meta TypeExpr → Parse (Meta TypeExpr)
  | 0, _ => fail .tooDeep
  | rounds + 1, ty => do
    if ← peekIs .questionMark then
      take .questionMark
      let ty ← add (.option ty.node)
      optionLoop rounds ty
    else return ty

mutual

def typeExpr : ℕ → Parse (Meta TypeExpr)
  | 0 => fail .tooDeep
  | depth + 1 => do
    let ty ← typeExprAtom depth
    optionLoop depth ty

def typeExprAtom : ℕ → Parse (Meta TypeExpr)
  | 0 => fail .tooDeep
  | depth + 1 => do
    if ← peekIs .bang then
      take .bang
      add .never
    else if ← peekIs .roundLeft then
      take .roundLeft
      take .roundRight
      add .unit
    else if ← peekIs .curlyLeft then
      let fields ← separated depth .curlyLeft .curlyRight .comma (recordField depth)
      add (.record fields.node)
    else
      let p ← path depth
      if ← peekIs .squareLeft then
        let params ← separated depth .squareLeft .squareRight .comma (typeExpr depth)
        add (.path p (some (params.node.map (·.node))))
      else add (.path p none)

def recordField : ℕ → Parse (Meta Identifier × TypeExpr)
  | 0 => fail .tooDeep
  | depth + 1 => do
    let key ← identifier
    take .colon
    let fieldType ← typeExpr depth
    return (key, fieldType.node)

end

/-! ### Literals -/

def addLiteral (l : Except InvalidLiteral Literal) : Parse (Meta Literal) :=
  match l with
  | .ok l => add l
  | .error e => fail (.invalidLiteral e)

def invalidLiteral (description : String) (token : Text) (l : Except String Literal) :
    Except InvalidLiteral Literal :=
  match l with
  | .ok l => .ok l
  | .error e => .error ⟨description, token, e⟩

/-- The arm for `Token::Float`. -/
def floatLiteral (ext : Externals) (s suffix : Text) : Except InvalidLiteral Literal := do
  let f ← match ext.parseF64 (s.filter fun c => c ≠ '_') with
    | .ok f => .ok f
    | .error e => .error ⟨"float", s ++ suffix, e⟩
  if suffix = "f32".toList then return .float f (some .f32)
  else if suffix = "f64".toList then return .float f (some .f64)
  else if suffix = [] then return .float f none
  else .error ⟨"float", s ++ suffix, s!"invalid suffix `{String.ofList suffix}`"⟩

def u32Range : IntRange := ⟨0, 2 ^ 32 - 1⟩

/-- The arm for `Token::Asn`. -/
def asnLiteral (s : Text) : Except InvalidLiteral Literal :=
  match u32Range.fromStrRadix 10 (s.drop 2) with
  | .ok n => .ok (.asn n.toNat)
  | .error e => .error ⟨"AS number", s, e.display⟩

/-- The text between the quotes. -/
def trimmed (s : Text) : Text := s.tail.dropLast

def escape {α : Type} (r : Except String α) : Parse α :=
  match r with
  | .ok a => pure a
  | .error description => fail (.custom description description none)

def simpleLiteral (ext : Externals) : Parse (Meta Literal) := do
  match ← next with
  | .string s =>
    let unescaped ← escape (ext.unescapeStr (trimmed s))
    add (.string (String.ofList unescaped))
  | .char s =>
    let unescaped ← escape (ext.unescapeChar (trimmed s))
    add (.char unescaped)
  | .integer s suffix => addLiteral (integerLiteral ext.parseF64 s suffix)
  | .float s suffix => addLiteral (floatLiteral ext s suffix)
  | .hex s => addLiteral (hexLiteral s)
  | .asn s => addLiteral (asnLiteral s)
  | .bool b => add (.bool b)
  | t => fail (.expected "a literal" t.display none)

def ipAddress (ext : Externals) : Parse (Meta Literal) := do
  match ← next with
  | .ipV4 s => addLiteral (invalidLiteral "Ipv4 addresses" s ((ext.parseIpv4 s).map .ipAddress))
  | .ipV6 s => addLiteral (invalidLiteral "Ipv6 addresses" s ((ext.parseIpv6 s).map .ipAddress))
  | t => fail (.expected "an IP address" t.display none)

def literal (ext : Externals) : Parse (Meta Literal) := do
  match ← peek with
  | some (.ipV4 _) => ipAddress ext
  | some (.ipV6 _) => ipAddress ext
  | _ => simpleLiteral ext

/-! ### Expressions -/

def canStartExpression : Token → Bool
  | .roundLeft | .curlyLeft | .squareLeft | .ident _ | .bang | .bool _ | .integer _ _ | .float _ _
  | .hyphen | .ipV4 _ | .ipV6 _ | .asn _ | .string _ => true
  | _ => false

/-- The token before a returned value. -/
def returnKind : Token → Option ReturnKind
  | .keyword .accept => some .accept
  | .keyword .reject => some .reject
  | .keyword .return_ => some .return
  | _ => none

def startsPath : Token → Bool
  | .ident _ | .keyword .super | .keyword .pkg | .keyword .dep | .keyword .std => true
  | _ => false

def peekBinop : Parse (Option BinOp) := do
  return match ← peek with
  | some .ampAmp => some .and
  | some .pipePipe => some .or
  | some .eqEq => some .eq
  | some .bangEq => some .ne
  | some .angleLeftEq => some .le
  | some .angleRightEq => some .ge
  | some .angleLeft => some .lt
  | some .angleRight => some .gt
  | some .plus => some .add
  | some .hyphen => some .sub
  | some .star => some .mul
  | some .slash => some .div
  | some .percent => some .mod
  | _ => none

def cannotAssign : ParseError :=
  .custom "left-hand side of an assignment must be a single identifier"
    "cannot assign to this expression" none

def notChained (op prev : BinOp) : ParseError :=
  .custom s!"`{op.display}` cannot be chained with `{prev.display}`"
    s!"cannot be chained with `{prev.display}`"
    (some "Try to disambiguate the expression with parentheses.")

/-- `str::replace` of two characters `c` by one. -/
def replaceDoubled (c : Char) : Text → Text
  | [] => []
  | [x] => [x]
  | x :: y :: rest => if x = c ∧ y = c then c :: replaceDoubled c rest else x :: replaceDoubled c (y :: rest)

/-- The text of a part of an f-string. -/
def fStringText (ext : Externals) (s : Text) : Except String Text := do
  let s ← ext.unescapeStr s
  return replaceDoubled '}' (replaceDoubled '{' s)

/-- What is returned, if there can be an expression. -/
def returnedValue (value : Parse Ast.Expr) : Parse (Option Ast.Expr) := do
  match ← peek with
  | some tok => if canStartExpression tok then return some (← value) else return none
  | none => return none

mutual

def block (ext : Externals) : ℕ → Parse Block
  | 0 => fail .tooDeep
  | depth + 1 => do
    take .curlyLeft
    blockLoop ext depth []

def blockLoop (ext : Externals) : ℕ → List Stmt → Parse Block
  | 0, _ => fail .tooDeep
  | depth + 1, stmts => do
    if ← peekIs .curlyRight then
      take .curlyRight
      return .mk (← addSpan) stmts none
    else if ← peekIs (.keyword .import_) then
      let _ ← «import» depth
      blockLoop ext depth stmts
    else if ← peekIs (.keyword .let_) then
      take (.keyword .let_)
      let ident ← identifier
      if ← nextIs .colon then
        let _ ← typeExpr depth
      take .eq
      let e ← assignExpr ext depth ⟨false⟩
      take .semiColon
      let _ ← addSpan
      blockLoop ext depth (stmts ++ [.let ident e])
    else if ← peekIs (.keyword .if_) then
      let e ← ifElse ext depth
      blockStatement ext depth stmts e
    else if ← peekIs (.keyword .match_) then
      let e ← matchExpr ext depth
      blockStatement ext depth stmts e
    else if ← peekIs (.keyword .while_) then
      let e ← whileExpr ext depth
      blockStatement ext depth stmts e
    else if ← peekIs (.keyword .for_) then
      let e ← forExpr ext depth
      blockStatement ext depth stmts e
    else
      let e ← assignExpr ext depth ⟨false⟩
      if ← nextIs .semiColon then blockLoop ext depth (stmts ++ [.expr e])
      else
        take .curlyRight
        return .mk (← addSpan) stmts (some e)

/-- What comes after an expression that is a statement without a semicolon. -/
def blockStatement (ext : Externals) : ℕ → List Stmt → Ast.Expr → Parse Block
  | 0, _, _ => fail .tooDeep
  | depth + 1, stmts, e => do
    if ← peekIs .curlyRight then
      take .curlyRight
      return .mk (← addSpan) stmts (some e)
    else
      let _ ← nextIs .semiColon
      blockLoop ext depth (stmts ++ [.expr e])

def assignExpr (ext : Externals) : ℕ → Restrictions → Parse Ast.Expr
  | 0, _ => fail .tooDeep
  | depth + 1, r => do
    let left ← binopExpr ext depth none r
    if ← nextIs .eq then
      match left with
      | .path _ p =>
        let right ← binopExpr ext depth none r
        return .assign (← addSpan) p right
      | _ => fail cannotAssign
    else if ← nextIs .plusEq then compoundAssignExpr ext depth left .add r
    else if ← nextIs .minusEq then compoundAssignExpr ext depth left .sub r
    else if ← nextIs .starEq then compoundAssignExpr ext depth left .mul r
    else if ← nextIs .slashEq then compoundAssignExpr ext depth left .div r
    else if ← nextIs .percentEq then compoundAssignExpr ext depth left .mod r
    else return left

def compoundAssignExpr (ext : Externals) :
    ℕ → Ast.Expr → CompoundAssignOp → Restrictions → Parse Ast.Expr
  | 0, _, _, _ => fail .tooDeep
  | depth + 1, left, op, r => do
    let right ← binopExpr ext depth none r
    match left with
    | .path id p =>
      let binopId ← addSpan
      return .compoundAssign (← addSpan) binopId id p op right
    | _ => fail cannotAssign

def binopExpr (ext : Externals) : ℕ → Option BinOp → Restrictions → Parse Ast.Expr
  | 0, _, _ => fail .tooDeep
  | depth + 1, prev, r => do
    let lhs ← negation ext depth r
    binopLoop ext depth prev lhs r

def binopLoop (ext : Externals) : ℕ → Option BinOp → Ast.Expr → Restrictions → Parse Ast.Expr
  | 0, _, _, _ => fail .tooDeep
  | depth + 1, prev, lhs, r => do
    match ← peekBinop with
    | none => return lhs
    | some operator =>
      match prev, onOperator prev operator with
      | _, .left => return lhs
      | some prev, .not =>
        let _ ← next
        fail (notChained operator prev)
      | _, _ =>
        let _ ← next
        let rhs ← binopExpr ext depth (some operator) r
        binopLoop ext depth prev (.binOp (← addSpan) lhs operator rhs) r

def negation (ext : Externals) : ℕ → Restrictions → Parse Ast.Expr
  | 0, _ => fail .tooDeep
  | depth + 1, r => do
    if ← peekIs .bang then
      take .bang
      let e ← negation ext depth r
      return .not (← addSpan) e
    else if ← peekIs .hyphen then
      take .hyphen
      let e ← negation ext depth r
      return .negate (← addSpan) e
    else access ext depth r

def access (ext : Externals) : ℕ → Restrictions → Parse Ast.Expr
  | 0, _ => fail .tooDeep
  | depth + 1, r => do
    let e ← atom ext depth r
    accessLoop ext depth e

def accessLoop (ext : Externals) : ℕ → Ast.Expr → Parse Ast.Expr
  | 0, _ => fail .tooDeep
  | depth + 1, e => do
    if ← peekIs .questionMark then
      take .questionMark
      accessLoop ext depth (.questionMark (← addSpan) e)
    else if ← peekIs .roundLeft then
      let args ← separated depth .roundLeft .roundRight .comma (assignExpr ext depth ⟨false⟩)
      accessLoop ext depth (.functionCall (← addSpan) e args.node)
    else if ← nextIs .period then
      let ident ← identifier
      accessLoop ext depth (.access (← addSpan) e ident)
    else return e

def atom (ext : Externals) : ℕ → Restrictions → Parse Ast.Expr
  | 0, _ => fail .tooDeep
  | depth + 1, r => do
    if ← peekIs .roundLeft then
      take .roundLeft
      if ← peekIs .roundRight then
        take .roundRight
        let literal ← add .unit
        return .literal literal.id literal
      else
        let e ← assignExpr ext depth ⟨false⟩
        take .roundRight
        return e
    else if ← peekIs .squareLeft then
      let values ←
        separated depth .squareLeft .squareRight .comma (assignExpr ext depth ⟨false⟩)
      return .list values.id values.node
    else if ← peekIs .curlyLeft then
      let two ← peekMany 2
      let three ← peekMany 3
      let isAnonymousRecord := two == some [.curlyLeft, .curlyRight] ||
        match three with
        | some [.curlyLeft, .ident _, .colon] => true
        | _ => false
      if isAnonymousRecord then
        let keyValues ← record ext depth
        return .record (← addSpan) keyValues.node
      else
        let b ← block ext depth
        return .block (← addSpan) b
    else match (← peek).bind returnKind with
    | some kind =>
      let _ ← next
      let val ← returnedValue (assignExpr ext depth ⟨false⟩)
      return .return (← addSpan) kind val
    | none =>
      if ← peekIs (.keyword .if_) then ifElse ext depth
      else if ← peekIs (.keyword .match_) then matchExpr ext depth
      else if ← peekIs (.keyword .while_) then whileExpr ext depth
      else if ← peekIs (.keyword .for_) then forExpr ext depth
      else if (← peek).any startsPath then
        let p ← path depth
        if !r.forbidRecords && (← peekIs .curlyLeft) then
          let keyValues ← record ext depth
          return .typedRecord (← addSpan) p keyValues.node
        else return .path p.id p
      else if ← peekIs .fStringStart then fString ext depth
      else
        let l ← literal ext
        return .literal l.id l

def ifElse (ext : Externals) : ℕ → Parse Ast.Expr
  | 0 => fail .tooDeep
  | depth + 1 => do
    take (.keyword .if_)
    let cond ← assignExpr ext depth ⟨true⟩
    let thenBlock ← block ext depth
    if ← nextIs (.keyword .else_) then
      if ← peekIs (.keyword .if_) then
        let e ← ifElse ext depth
        return .ifElse (← addSpan) cond thenBlock (some (.mk e.id [] (some e)))
      else
        let elseBlock ← block ext depth
        return .ifElse (← addSpan) cond thenBlock (some elseBlock)
    else return .ifElse (← addSpan) cond thenBlock none

def whileExpr (ext : Externals) : ℕ → Parse Ast.Expr
  | 0 => fail .tooDeep
  | depth + 1 => do
    take (.keyword .while_)
    let cond ← assignExpr ext depth ⟨true⟩
    let body ← block ext depth
    return .while (← addSpan) cond body

def forExpr (ext : Externals) : ℕ → Parse Ast.Expr
  | 0 => fail .tooDeep
  | depth + 1 => do
    take (.keyword .for_)
    let ident ← identifier
    take (.keyword .in_)
    let e ← assignExpr ext depth ⟨true⟩
    let body ← block ext depth
    return .for (← addSpan) ident e body

def matchExpr (ext : Externals) : ℕ → Parse Ast.Expr
  | 0 => fail .tooDeep
  | depth + 1 => do
    take (.keyword .match_)
    let e ← assignExpr ext depth ⟨true⟩
    take .curlyLeft
    let arms ← matchArms ext depth []
    take .curlyRight
    let _ ← addSpan
    return .match (← addSpan) e arms

/-- The loop over the arms of a match. -/
def matchArms (ext : Externals) : ℕ → List MatchArm → Parse (List MatchArm)
  | 0, _ => fail .tooDeep
  | depth + 1, arms => do
    if ← peekIs .curlyRight then return arms
    else
      let variant ← identifier
      let pattern ←
        if variant.node = "_" then pure .underscore
        else if ← peekIs .roundLeft then do
          let fields ← separated depth .roundLeft .roundRight .comma identifier
          pure (.enumVariant variant (some fields.node))
        else pure (.enumVariant variant none)
      let _ ← addSpan
      let guard ←
        if ← nextIs (.keyword .if_) then some <$> assignExpr ext depth ⟨false⟩ else pure none
      take .fatArrow
      if ← peekIs .curlyLeft then
        let body ← block ext depth
        let _ ← nextIs .comma
        matchArms ext depth (arms ++ [.mk pattern guard body])
      else
        let e ← assignExpr ext depth ⟨false⟩
        if !(← peekIs .curlyRight) then
          take .comma
        matchArms ext depth (arms ++ [.mk pattern guard (.mk e.id [] (some e))])

def record (ext : Externals) : ℕ → Parse (Meta (List (Meta Identifier × Ast.Expr)))
  | 0 => fail .tooDeep
  | depth + 1 => separated depth .curlyLeft .curlyRight .comma do
    let key ← identifier
    take .colon
    let value ← assignExpr ext depth ⟨false⟩
    return (key, value)

def fString (ext : Externals) : ℕ → Parse Ast.Expr
  | 0 => fail .tooDeep
  | depth + 1 => do
    take .fStringStart
    fStringLoop ext depth []

/-- The loop over the parts of an f-string. -/
def fStringLoop (ext : Externals) : ℕ → List FStringPart → Parse Ast.Expr
  | 0, _ => fail .tooDeep
  | depth + 1, parts => do
    let part ← fStringPart
    let s := match part with
      | some (.stringEnd s) => s
      | some (.stringIntermediate s) => s
      | none => []
    let parts ←
      if s.isEmpty then pure parts
      else do
        let s ← escape (fStringText ext s)
        pure (parts ++ [.string (← addSpan) (String.ofList s)])
    match part with
    | none => fail .endOfInput
    | some (.stringEnd _) => return .fString (← addSpan) parts
    | some (.stringIntermediate _) =>
      take .curlyLeft
      let e ← assignExpr ext depth ⟨false⟩
      let parts := parts ++ [.expr (← addSpan) e]
      take .curlyRight
      fStringLoop ext depth parts

end

/-- `Parser::expr`. -/
def expr (ext : Externals) (depth : ℕ) : Parse Ast.Expr := assignExpr ext depth ⟨false⟩

end Parse

end Roto.Parser
