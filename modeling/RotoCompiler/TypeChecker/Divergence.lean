import RotoCompiler.Ast.Fold
import RotoCompiler.Mir.Matches
import RotoCompiler.TypeChecker.Info

/-!
# The divergence flags (typechecker/expr.rs)

`TypeChecker::expr` and its helpers return whether the node diverges, and record the flag
of each block and each `if` in `type_info.diverges`. This is that half of the checker, with
the checks against the unit type, which the flags are for. Of the other types it only sees
what each expression is expected to have. Where the checker looks at an operand of `+` or
`/` a second time it records the same again, which is left out.
-/

namespace Roto.TypeChecker.Divergence
open Ast
open Mir (Variants isExhaustive)

/-! ### The pass -/

/-- What the pass looks up: the type that is expected of each expression, when all are
inferred, and the variants that `match_patterns` gives for a match. -/
structure Info where
  types : MetaId → Typ
  variants : MetaId → Option Variants

/-- `Context`, whose `expected_type` is an argument of its own. -/
structure Context extends Info where
  functionReturnType : Option Typ

/-- The pass on a part that has an expected type of its own. -/
def Context.part {β : Type} (Γ : Context) (e : Expr × (Typ → β)) : β := e.2 (Γ.types e.1.id)

/-- The accept and the reject type, if the type is a verdict. -/
def verdictTypes : Typ → Option (Typ × Typ)
  | .name n [a, r] => if n = ⟨ScopeRef.GLOBAL, "Verdict"⟩ then some (a, r) else none
  | _ => none

/-- The type that is expected of a value that the function is left with. In a function that is
declared to return `!` the checker takes any `accept` and `reject`, which is left out. -/
def Context.returned (Γ : Context) : ReturnKind → Option Typ
  | .return => Γ.functionReturnType
  | .accept => (Γ.functionReturnType.bind verdictTypes).map (·.1)
  | .reject => (Γ.functionReturnType.bind verdictTypes).map (·.2)

/-- The element type, if the type is an `Option`. -/
def optionType : Typ → Option Typ
  | .name n [t] => if n = ⟨ScopeRef.GLOBAL, "Option"⟩ then some t else none
  | _ => none

/-- The flags recorded so far, the last one first; `none` is a program that the checker
gives up on. -/
abbrev CheckM := StateT (List (MetaId × Bool)) Option

/-- `self.type_info.diverges.insert(id, diverges)`. -/
def insert (id : MetaId) (diverges : Bool) : CheckM Unit :=
  modify fun flags => (id, diverges) :: flags

/-- `self.type_info.expr_types.insert(id, ctx.expected_type.clone())`. As `types` has what all
the inserts come to, one of them has to agree with it. The type of a path itself, which the
checker stores after that, is left out. -/
def insertType (info : Info) (id : MetaId) (expected : Typ) : CheckM Unit :=
  if info.types id = expected then pure () else failure

/-- `self.unify(&ctx.expected_type, &Type::unit(), ..)?`. -/
def unifyUnit (expected : Typ) : CheckM Unit :=
  if expected = .unit ∨ expected = .never then pure () else failure

variable (Γ : Context)

/-- `TypeChecker::expr`, with `m` for what it does with the kind of the expression. -/
def expr (id : MetaId) (expected : Typ) (m : CheckM Bool) : CheckM Bool := do
  insertType Γ.toInfo id expected
  m

/-- `diverges |= self.expr(..)?` over a list of expressions. -/
def exprs (diverges : Bool) : List (Expr × (Typ → CheckM Bool)) → CheckM Bool
  | [] => pure diverges
  | e :: es => do
    let d ← Γ.part e
    exprs (diverges || d) es

/-- The loop over the arms in `match_expr`. -/
def arms (expected : Typ) (armsDiverge : Bool) :
    List (Pattern × Option (Expr × (Typ → CheckM Bool)) × Block × (Typ → CheckM Bool)) →
      CheckM Bool
  | [] => pure armsDiverge
  | (_, none, _, body) :: rest => do
    let d ← body expected
    arms expected (armsDiverge && d) rest
  | (_, some guard, _, body) :: rest => do
    let _ ← Γ.part guard
    let d ← body expected
    arms expected (armsDiverge && d) rest

def matchExpr (id : MetaId) (expected : Typ) (expr : Expr × (Typ → CheckM Bool))
    (as : List (Pattern × Option (Expr × (Typ → CheckM Bool)) × Block × (Typ → CheckM Bool))) :
    CheckM Bool := do
  let diverges ← Γ.part expr
  -- `todo!("make a pretty error")`
  if diverges then failure
  else match Γ.variants id with
    | none => failure
    | some variants =>
      if isExhaustive variants (as.map fun arm => .mk arm.1 (arm.2.1.map Prod.fst) arm.2.2.1) then
        arms Γ expected true as
      else failure

/-- The check of a block that has no last expression. -/
def endOfBlock (expected : Typ) (diverged : Bool) : CheckM Unit :=
  if diverged then pure () else unifyUnit expected

def block (expected : Typ) (id : MetaId)
    (stmts : List (Option (Meta Identifier) × Expr × (Typ → CheckM Bool)))
    (last : Option (Expr × (Typ → CheckM Bool))) : CheckM Bool := do
  let diverged ← exprs Γ false (stmts.map Prod.snd)
  match last with
  | none =>
    endOfBlock expected diverged
    insert id diverged
    pure diverged
  | some expr =>
    let d ← expr.2 expected
    insert id (diverged || d)
    pure (diverged || d)

def ifElse (id : MetaId) (expected : Typ) (c : Expr × (Typ → CheckM Bool))
    (t : Typ → CheckM Bool) (e : Option (Block × (Typ → CheckM Bool))) : CheckM Bool := do
  let _ ← Γ.part c
  match e with
  | some e =>
    let d₁ ← t expected
    let d₂ ← e.2 expected
    insert id (d₁ && d₂)
    pure (d₁ && d₂)
  | none =>
    unifyUnit expected
    let _ ← t .unit
    insert id false
    pure false

/-- A loop, whose body is given the expected type of the loop. -/
def loop (expected : Typ) (c : Expr × (Typ → CheckM Bool)) (b : Typ → CheckM Bool) :
    CheckM Bool := do
  let d₁ ← Γ.part c
  let d₂ ← b expected
  unifyUnit expected
  pure (d₁ || d₂)

def assign (expected : Typ) (e : Expr × (Typ → CheckM Bool)) : CheckM Bool := do
  unifyUnit expected
  Γ.part e

/-- `diverges |=` the right operand, also where that need not run. -/
def binop (l r : Expr × (Typ → CheckM Bool)) : CheckM Bool := do
  let d₁ ← Γ.part l
  let d₂ ← Γ.part r
  pure (d₁ || d₂)

def functionCall (function : Expr) (receiver : Option (Expr × (Typ → CheckM Bool)))
    (args : List (Expr × (Typ → CheckM Bool))) : CheckM Bool :=
  match function, receiver with
  | .path _ _, _ => exprs Γ false args
  | _, some e => do
    let d ← Γ.part e
    exprs Γ d args
  -- "arbitrary function expressions are not supported yet"
  | _, none => failure

def returnExpr (kind : ReturnKind) (e : Option (Expr × (Typ → CheckM Bool))) : CheckM Bool :=
  match Γ.returned kind with
  | none => failure
  | some expected => do
    match e with
    | some e => let _ ← e.2 expected
    | none => unifyUnit expected
    pure true

/-- The function has to return an `Option`. -/
def questionMark (e : Expr × (Typ → CheckM Bool)) : CheckM Bool := do
  let d ← Γ.part e
  if (Γ.functionReturnType.bind optionType).isSome then pure d else failure

/-- The parts of an f-string that are expressions. -/
def exprParts {β : Type} (parts : List (MetaId × (String ⊕ β))) : List β :=
  parts.filterMap fun part => part.2.getRight?

/-- `TypeChecker::expr` and `TypeChecker::block`, from the expected type. -/
@[simps]
def check : Alg (Typ → CheckM Bool) (Typ → CheckM Bool) where
  returnE id kind e expected := expr Γ id expected (returnExpr Γ kind e)
  literal id _ expected := expr Γ id expected (pure false)
  block id b expected := expr Γ id expected (b.2 expected)
  matchE id e as expected := expr Γ id expected (matchExpr Γ id expected e as)
  functionCall id function receiver args expected :=
    expr Γ id expected (functionCall Γ function receiver args)
  access id e _ expected := expr Γ id expected (Γ.part e)
  path id _ expected := expr Γ id expected (pure false)
  record id fields expected := expr Γ id expected (exprs Γ false (fields.map Prod.snd))
  typedRecord id _ fields expected := expr Γ id expected (exprs Γ false (fields.map Prod.snd))
  list id es expected := expr Γ id expected (exprs Γ false es)
  not id e expected := expr Γ id expected (Γ.part e)
  assign id _ e expected := expr Γ id expected (assign Γ expected e)
  compoundAssign id _ _ _ _ e expected := expr Γ id expected (assign Γ expected e)
  binOp id l _ r expected := expr Γ id expected (binop Γ l r)
  negate id e expected := expr Γ id expected (Γ.part e)
  ifElse id c t e expected := expr Γ id expected (ifElse Γ id expected c t.2 e)
  whileE id c b expected := expr Γ id expected (loop Γ expected c b.2)
  forE id _ e b expected := expr Γ id expected (loop Γ expected e b.2)
  questionMark id e expected := expr Γ id expected (questionMark Γ e)
  fString id parts expected := expr Γ id expected (exprs Γ false (exprParts parts))
  body id stmts last expected := block Γ expected id stmts last

/-! ### What the pass computes -/

/-- The parts of a node that count: `all`, or `sure` for those but the body of a loop and the
right operand of `&&` and `||`, which need not run when the node does. -/
inductive Parts where
  | all
  | sure

def isLazy : BinOp → Bool
  | .and => true
  | .or => true
  | _ => false

/-- The body of a loop counts. -/
def Parts.loop : Parts → Bool
  | .all => true
  | .sure => false

/-- The right operand counts. -/
def Parts.right (op : BinOp) : Parts → Bool
  | .all => true
  | .sure => !isLazy op

/-- A node leaves by its form: it returns, or a part of it does. A condition does not count. -/
@[simps]
def leaves (ps : Parts) : Alg Bool Bool where
  returnE _ _ _ := true
  literal _ _ := false
  block _ b := b.2
  matchE _ _ as := as.all fun arm => arm.2.2.2
  functionCall _ _ receiver args := receiver.any Prod.snd || args.any Prod.snd
  access _ e _ := e.2
  path _ _ := false
  record _ fields := fields.any fun f => f.2.2
  typedRecord _ _ fields := fields.any fun f => f.2.2
  list _ es := es.any Prod.snd
  not _ e := e.2
  assign _ _ e := e.2
  compoundAssign _ _ _ _ _ e := e.2
  binOp _ l op r := l.2 || (ps.right op && r.2)
  negate _ e := e.2
  ifElse _ _ t e := t.2 && e.any Prod.snd
  whileE _ c b := c.2 || (ps.loop && b.2)
  forE _ _ e b := e.2 || (ps.loop && b.2)
  questionMark _ e := e.2
  fString _ parts := (exprParts parts).any Prod.snd
  body _ stmts last := stmts.any (fun s => s.2.2) || last.any Prod.snd

end Roto.TypeChecker.Divergence

namespace Roto.Ast
open TypeChecker

def Expr.leaves (ps : Divergence.Parts) (e : Expr) : Bool := e.fold (Divergence.leaves ps)

def Block.leaves (ps : Divergence.Parts) (b : Block) : Bool := b.fold (Divergence.leaves ps)

end Roto.Ast

namespace Roto.TypeChecker.Divergence
open Ast
open Mir (isExhaustive)

/-- A node that the checker records a flag for. -/
inductive Node where
  | block (b : Block)
  | ifElse (id : MetaId) (thenBlock : Block) (elseBlock : Option Block)

def Node.id : Node → MetaId
  | .block b => b.id
  | .ifElse id _ _ => id

def Node.leaves : Node → Bool
  | .block b => b.leaves .all
  | .ifElse _ t e => t.leaves .all && e.any (Block.leaves .all)

/-- The id and the flag. -/
def Node.record (n : Node) : MetaId × Bool := (n.id, n.leaves)

/-- A block and the nodes in it. -/
def ofBlock (b : Block × List Node) : List Node := b.2 ++ [.block b.1]

/-- The nodes in an expression, and those in a block but for the block itself, in the order
in which the checker gets to the end of them. -/
@[simps]
def nodes : Alg (List Node) (List Node) where
  returnE _ _ e := (e.map Prod.snd).getD []
  literal _ _ := []
  block _ b := ofBlock b
  matchE _ e as := e.2 ++ as.flatMap fun arm => (arm.2.1.map Prod.snd).getD [] ++ ofBlock arm.2.2
  functionCall _ _ receiver args := (receiver.map Prod.snd).getD [] ++ args.flatMap Prod.snd
  access _ e _ := e.2
  path _ _ := []
  record _ fields := fields.flatMap fun f => f.2.2
  typedRecord _ _ fields := fields.flatMap fun f => f.2.2
  list _ es := es.flatMap Prod.snd
  not _ e := e.2
  assign _ _ e := e.2
  compoundAssign _ _ _ _ _ e := e.2
  binOp _ l _ r := l.2 ++ r.2
  negate _ e := e.2
  ifElse id c t e := c.2 ++ ofBlock t ++ (e.map ofBlock).getD [] ++
    [.ifElse id t.1 (e.map Prod.fst)]
  whileE _ c b := c.2 ++ ofBlock b
  forE _ _ e b := e.2 ++ ofBlock b
  questionMark _ e := e.2
  fString _ parts := (exprParts parts).flatMap Prod.snd
  body _ stmts last := (stmts.flatMap fun s => s.2.2) ++ (last.map Prod.snd).getD []

end Roto.TypeChecker.Divergence

namespace Roto.Ast
open TypeChecker
open Divergence (Node)

def Expr.nodes (e : Expr) : List Node := e.fold Divergence.nodes

def Block.nodes (b : Block) : List Node := Divergence.ofBlock (b, b.fold Divergence.nodes)

/-! ### The two on each kind of node -/

section
variable (ps : Divergence.Parts) (id : MetaId)

theorem Expr.leaves_ifElse (c : Expr) (t : Block) (e : Option Block) :
    (Expr.ifElse id c t e).leaves ps = (t.leaves ps && e.any (Block.leaves ps)) := by
  simp [Expr.leaves, Block.leaves, Expr.fold, Option.any_map]
  rfl

theorem Block.leaves_mk (stmts : List Stmt) (last : Option Expr) :
    (Block.mk id stmts last).leaves ps =
      ((stmts.any fun s => s.value.leaves ps) || last.any (Expr.leaves ps)) := by
  simp [Expr.leaves, Block.leaves, Block.fold, Option.any_map, Function.comp_def]
  rfl

end

end Roto.Ast

namespace Roto.TypeChecker.Divergence
open Ast
open Mir (isExhaustive)

/-! ### What the pass does to its state -/

/-- Where `m` succeeds it gives `d` and records the flags of `ns`. -/
def Does {α : Type} (m : CheckM α) (d : α) (ns : List Node) : Prop :=
  ∀ σ d' σ', m σ = some (d', σ') → d' = d ∧ σ' = (ns.map Node.record).reverse ++ σ

theorem Does.pure {α : Type} (d : α) : Does (pure d) d [] := by
  intro σ d' σ' h
  obtain ⟨rfl, rfl⟩ := Prod.mk.inj (Option.some.inj h)
  exact ⟨rfl, rfl⟩

theorem Does.bind {α β : Type} {m : CheckM α} {k : α → CheckM β} {d : α} {d' : β}
    {ns ns' : List Node} (hm : Does m d ns) (hk : Does (k d) d' ns') :
    Does (m >>= k) d' (ns ++ ns') := by
  intro σ r σ' h
  have h : (m σ).bind (fun p => k p.1 p.2) = some (r, σ') := h
  obtain ⟨⟨x, σ₁⟩, hx, h⟩ := Option.bind_eq_some_iff.mp h
  obtain ⟨rfl, rfl⟩ := hm _ _ _ hx
  obtain ⟨rfl, rfl⟩ := hk _ _ _ h
  simp

variable {Γ : Context}

end Roto.TypeChecker.Divergence
