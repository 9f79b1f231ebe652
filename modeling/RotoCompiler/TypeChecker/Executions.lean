import RotoCompiler.Lib.Outcome
import RotoCompiler.TypeChecker.Divergence

/-!
# Executions of blocks

What the executions of a node come to, over all values that conditions, the collections of
loops and the examinees of matches can have. Of a value only what it is the value of is kept:
a block without a last expression, a loop, an assignment and an `if` whose condition is false
have the unit value, a block, a match and an `if` else have that of a part, and any other
expression has one of its own.
-/

namespace Roto.TypeChecker.Divergence
open Ast Lib
open Mir (Variants)

inductive Value where
  | unit
  /-- the value of the expression with this id -/
  | of (id : MetaId)

/-- How an execution leaves the function before its end. -/
inductive Exit where
  | returned (kind : ReturnKind) (v : Value)
  /-- a `?` whose operand is `None` -/
  | none

/-- The executions of a node. -/
abbrev Runs := Outcomes Exit Value

def accepts (name : Identifier) : Pattern → Bool
  | .underscore => true
  | .enumVariant variant _ => variant.node = name

def returnRuns (kind : ReturnKind) : Option (Expr × Runs) → Runs
  | none => .exit (.returned kind .unit)
  | some e => e.2.bind fun v => .exit (.returned kind v)

/-- The arms on a value that is of the variant `name`. -/
def armRuns (name : Identifier) : List (Pattern × Option (Expr × Runs) × Block × Runs) → Runs
  | [] => .stuck
  | (p, guard, _, body) :: rest =>
    if accepts name p then
      match guard with
      | none => body
      | some g => g.2.seq (body.either (armRuns name rest))
    else armRuns name rest

/-- The expressions in turn, then a value. -/
def allRuns (v : Value) (es : List (Expr × Runs)) : Runs := .all (es.map Prod.snd) (.pure v)

def binopRuns (id : MetaId) (l : Expr × Runs) (op : BinOp) (r : Expr × Runs) : Runs :=
  l.2.seq
    (if isLazy op then .either (.pure (.of id)) (allRuns (.of id) [r])
    else allRuns (.of id) [r])

def ifElseRuns (c : Expr × Runs) (t : Runs) (e : Option (Block × Runs)) : Runs :=
  c.2.seq
    (match e with
    | none => .either (.pure .unit) t
    | some e => .either t e.2)

/-- Conditions and bodies in turn, any number of times. -/
def whileRuns (c : Expr × Runs) (b : Runs) : Runs := c.2.seq (.star (b.seq c.2) .unit)

def forRuns (e : Expr × Runs) (b : Runs) : Runs := e.2.seq (.star b .unit)

def questionMarkRuns (id : MetaId) (e : Expr × Runs) : Runs :=
  e.2.seq (.either (.exit .none) (.pure (.of id)))

def blockRuns (stmts : List (Expr × Runs)) (last : Option (Expr × Runs)) : Runs :=
  .all (stmts.map Prod.snd)
    (match last with
    | none => .pure .unit
    | some e => e.2)

section
variable (variants : MetaId → Option Variants)

/-- The examinee is a value of one of the variants of its type. -/
def matchRuns (id : MetaId) (e : Expr × Runs)
    (as : List (Pattern × Option (Expr × Runs) × Block × Runs)) : Runs :=
  e.2.seq (.oneOf (((variants id).getD []).map fun v => armRuns v.1 as))

@[simps]
def exec : Alg Runs Runs where
  returnE _ kind e := returnRuns kind e
  literal id _ := allRuns (.of id) []
  block _ b := b.2
  matchE id e as := matchRuns variants id e as
  functionCall id _ receiver args := allRuns (.of id) (receiver.toList ++ args)
  access id e _ := allRuns (.of id) [e]
  path id _ := allRuns (.of id) []
  record id fields := allRuns (.of id) (fields.map Prod.snd)
  typedRecord id _ fields := allRuns (.of id) (fields.map Prod.snd)
  list id es := allRuns (.of id) es
  not id e := allRuns (.of id) [e]
  assign _ _ e := allRuns .unit [e]
  compoundAssign _ _ _ _ _ e := allRuns .unit [e]
  binOp id l op r := binopRuns id l op r
  negate id e := allRuns (.of id) [e]
  ifElse _ c t e := ifElseRuns c t.2 e
  whileE _ c b := whileRuns c b.2
  forE _ _ e b := forRuns e b.2
  questionMark id e := questionMarkRuns id e
  fString id parts := allRuns (.of id) (exprParts parts)
  body _ stmts last := blockRuns (stmts.map Prod.snd) last

end

/-! ### Which nodes can run to their end -/

section
variable (variants : MetaId → Option Variants)

def armsFinish (name : Identifier) :
    List (Pattern × Option (Expr × Bool) × Block × Bool) → Bool
  | [] => false
  | (p, guard, _, body) :: rest =>
    if accepts name p then
      match guard with
      | none => body
      | some g => g.2 && (body || armsFinish name rest)
    else armsFinish name rest

/-- No part that is always run keeps a node from its end. The body of a loop and the right
operand of `&&` and `||` need not run, a condition has to. -/
@[simps]
def finishes : Alg Bool Bool where
  returnE _ _ _ := false
  literal _ _ := true
  block _ b := b.2
  matchE id e as := e.2 && ((variants id).getD []).any fun v => armsFinish v.1 as
  functionCall _ _ receiver args := (receiver.toList ++ args).all Prod.snd
  access _ e _ := e.2
  path _ _ := true
  record _ fields := fields.all fun f => f.2.2
  typedRecord _ _ fields := fields.all fun f => f.2.2
  list _ es := es.all Prod.snd
  not _ e := e.2
  assign _ _ e := e.2
  compoundAssign _ _ _ _ _ e := e.2
  binOp _ l op r := l.2 && (isLazy op || r.2)
  negate _ e := e.2
  ifElse _ c t e := c.2 && (t.2 || e.all Prod.snd)
  whileE _ c _ := c.2
  forE _ _ e _ := e.2
  questionMark _ e := e.2
  fString _ parts := (exprParts parts).all Prod.snd
  body _ stmts last := stmts.all (fun s => s.2.2) && last.all Prod.snd

end

end Roto.TypeChecker.Divergence

namespace Roto.Ast
open TypeChecker
open Mir (Variants)

def Expr.finishes (variants : MetaId → Option Variants) (e : Expr) : Bool :=
  e.fold (Divergence.finishes variants)

def Block.finishes (variants : MetaId → Option Variants) (b : Block) : Bool :=
  b.fold (Divergence.finishes variants)

section
variable (variants : MetaId → Option Variants) (id : MetaId)

end

end Roto.Ast

namespace Roto.TypeChecker.Divergence
open Ast Lib Outcomes
open Mir (Variants)

variable {variants : MetaId → Option Variants}

end Roto.TypeChecker.Divergence
