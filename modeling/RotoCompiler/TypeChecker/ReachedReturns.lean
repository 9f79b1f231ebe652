import RotoCompiler.TypeChecker.Executions

/-!
# The returns that an execution can get to

Which nodes hold a `return`, an `accept` or a `reject` that no part before it keeps an
execution from.
-/

namespace Roto.TypeChecker.Divergence
open Ast Lib Outcomes
open Mir (Variants)

section
variable (variants : MetaId → Option Variants)

/-- Of expressions that are run in turn, and of what is run after them. -/
def turnReturns (last : Bool) : List (Expr × Bool) → Bool
  | [] => last
  | e :: es => e.2 || (e.1.finishes variants && turnReturns last es)

def armsReturn (name : Identifier) :
    List (Pattern × Option (Expr × Bool) × Block × Bool) → Bool
  | [] => false
  | (p, guard, _, body) :: rest =>
    if accepts name p then
      match guard with
      | none => body
      | some g => turnReturns variants (body || armsReturn name rest) [g]
    else armsReturn name rest

/-- A `return`, `accept` or `reject`, as `kind` says, can be got to. -/
@[simps]
def returns (kind : ReturnKind) : Alg Bool Bool where
  returnE _ k e := turnReturns variants (decide (k = kind)) e.toList
  literal _ _ := false
  block _ b := b.2
  matchE id e as := turnReturns variants
    (((variants id).getD []).any fun v => armsReturn variants v.1 as) [e]
  functionCall _ _ receiver args := turnReturns variants false (receiver.toList ++ args)
  access _ e _ := e.2
  path _ _ := false
  record _ fields := turnReturns variants false (fields.map Prod.snd)
  typedRecord _ _ fields := turnReturns variants false (fields.map Prod.snd)
  list _ es := turnReturns variants false es
  not _ e := e.2
  assign _ _ e := e.2
  compoundAssign _ _ _ _ _ e := e.2
  binOp _ l _ r := turnReturns variants false [l, r]
  negate _ e := e.2
  ifElse _ c t e := turnReturns variants (t.2 || e.any Prod.snd) [c]
  whileE _ c b := turnReturns variants b.2 [c]
  forE _ _ e b := turnReturns variants b.2 [e]
  questionMark _ e := e.2
  fString _ parts := turnReturns variants false (exprParts parts)
  body _ stmts last := turnReturns variants (last.any Prod.snd) (stmts.map Prod.snd)

end

end Roto.TypeChecker.Divergence

namespace Roto.Ast
open TypeChecker
open Mir (Variants)

def Expr.returns (variants : MetaId → Option Variants) (kind : ReturnKind) (e : Expr) : Bool :=
  e.fold (Divergence.returns variants kind)

def Block.returns (variants : MetaId → Option Variants) (kind : ReturnKind) (b : Block) : Bool :=
  b.fold (Divergence.returns variants kind)

end Roto.Ast

namespace Roto.TypeChecker.Divergence
open Ast Lib Outcomes
open Mir (Variants)

variable {variants : MetaId → Option Variants} {kind : ReturnKind}

/-- The exits of a return of this kind. -/
def Returned (kind : ReturnKind) (x : Exit) : Prop := ∃ v, x = .returned kind v

end Roto.TypeChecker.Divergence
