import RotoCompiler.TypeChecker.Types

/-!
# Syntax trees (ast.rs)

Expressions, statements and blocks as the parser gives them. A node of the source is a
`Meta`, the node with its id; the id is the first argument of a constructor here.
Imports and the type of a `let` are left out, since neither divergence nor lowering
looks at them.
-/

namespace Roto.Ast

inductive IntType where
  | i8 | i16 | i32 | i64 | u8 | u16 | u32 | u64
  deriving DecidableEq, Repr

inductive FloatType where
  | f32 | f64
  deriving DecidableEq, Repr

/-- A float is given by its bits, an address by its number. -/
inductive Literal where
  | string (s : String)
  | char (c : Char)
  | asn (n : ℕ)
  | ipAddress (n : ℕ)
  | integer (n : Int) (ty : Option IntType)
  | float (bits : ℕ) (ty : Option FloatType)
  | bool (b : Bool)
  | unit
  deriving DecidableEq, Repr

inductive BinOp where
  | and | or | eq | ne | lt | le | gt | ge | add | sub | mul | div | mod
  deriving DecidableEq, Repr

inductive CompoundAssignOp where
  | add | sub | mul | div | mod
  deriving DecidableEq, Repr

inductive ReturnKind where
  | return | accept | reject
  deriving DecidableEq, Repr

structure Path where
  id : MetaId
  idents : List (Meta Identifier)
  deriving DecidableEq, Repr

inductive Pattern where
  | underscore
  | enumVariant (variant : Meta Identifier) (fields : Option (List (Meta Identifier)))
  deriving DecidableEq, Repr

mutual
inductive Expr where
  | return (id : MetaId) (kind : ReturnKind) (expr : Option Expr)
  | literal (id : MetaId) (l : Meta Literal)
  | block (id : MetaId) (b : Block)
  | match (id : MetaId) (expr : Expr) (arms : List MatchArm)
  | functionCall (id : MetaId) (function : Expr) (arguments : List Expr)
  | access (id : MetaId) (expr : Expr) (field : Meta Identifier)
  | path (id : MetaId) (p : Path)
  | record (id : MetaId) (fields : List (Meta Identifier × Expr))
  | typedRecord (id : MetaId) (p : Path) (fields : List (Meta Identifier × Expr))
  | list (id : MetaId) (es : List Expr)
  | not (id : MetaId) (expr : Expr)
  | assign (id : MetaId) (p : Path) (expr : Expr)
  | compoundAssign (id binopId pathExprId : MetaId) (p : Path) (op : CompoundAssignOp)
      (expr : Expr)
  | binOp (id : MetaId) (left : Expr) (op : BinOp) (right : Expr)
  | negate (id : MetaId) (expr : Expr)
  | ifElse (id : MetaId) (condition : Expr) (thenBlock : Block) (elseBlock : Option Block)
  | while (id : MetaId) (condition : Expr) (body : Block)
  | for (id : MetaId) (name : Meta Identifier) (expr : Expr) (body : Block)
  | questionMark (id : MetaId) (expr : Expr)
  | fString (id : MetaId) (parts : List FStringPart)

inductive Block where
  | mk (id : MetaId) (stmts : List Stmt) (last : Option Expr)

inductive Stmt where
  | let (ident : Meta Identifier) (expr : Expr)
  | expr (e : Expr)

inductive MatchArm where
  | mk (pattern : Pattern) (guard : Option Expr) (body : Block)

inductive FStringPart where
  | string (id : MetaId) (s : String)
  | expr (id : MetaId) (e : Expr)
end

def Expr.id : Expr → MetaId
  | .return id _ _ => id
  | .literal id _ => id
  | .block id _ => id
  | .match id _ _ => id
  | .functionCall id _ _ => id
  | .access id _ _ => id
  | .path id _ => id
  | .record id _ => id
  | .typedRecord id _ _ => id
  | .list id _ => id
  | .not id _ => id
  | .assign id _ _ => id
  | .compoundAssign id _ _ _ _ _ => id
  | .binOp id _ _ _ => id
  | .negate id _ => id
  | .ifElse id _ _ _ => id
  | .while id _ _ => id
  | .for id _ _ _ => id
  | .questionMark id _ => id
  | .fString id _ => id

def Block.id : Block → MetaId
  | .mk id _ _ => id

def CompoundAssignOp.binOp : CompoundAssignOp → BinOp
  | .add => .add
  | .sub => .sub
  | .mul => .mul
  | .div => .div
  | .mod => .mod

def MatchArm.pattern : MatchArm → Pattern
  | .mk p _ _ => p

def MatchArm.guard : MatchArm → Option Expr
  | .mk _ g _ => g

def MatchArm.body : MatchArm → Block
  | .mk _ _ b => b

/-- The name that a `let` binds. -/
def Stmt.ident : Stmt → Option (Meta Identifier)
  | .let x _ => some x
  | .expr _ => none

def Stmt.value : Stmt → Expr
  | .let _ e => e
  | .expr e => e

def FStringPart.value : FStringPart → Option Expr
  | .string _ _ => none
  | .expr _ e => some e

/-- The id of a part, with its text or what `f` gives for its expression. -/
def FStringPart.pair {α : Type} (f : Expr → α) : FStringPart → MetaId × (String ⊕ α)
  | .string id s => (id, .inl s)
  | .expr id e => (id, .inr (f e))

/-- The receiver `e` of a called function `e.name`. -/
def Expr.receiver : Expr → Option Expr
  | .access _ e _ => some e
  | _ => none

end Roto.Ast
