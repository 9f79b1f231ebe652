import RotoCompiler.TypeChecker.ReachedReturns
import RotoCompiler.TypeChecker.SureLeaves

/-!
# What the divergence flags promise

A block that is flagged should have no execution that runs off its end, so that a function
which finishes does so with a value of its declared type. The flags promise so only where
they do not come from the body of a loop or the right operand of `&&` or `||`.
-/

namespace Roto.TypeChecker.Divergence
open Ast Lib Outcomes

/-! ### Programs -/

/-- What is checked: a function, a filter map or a test with its return type, or a constant. -/
inductive Item where
  | function (ret : Typ) (body : Block)
  | constant (ty : Typ) (expr : Expr)

/-- `Context`, as `function` and `constant` set it up. -/
def Item.context (info : Info) : Item → Context
  | .function ret _ => { info with functionReturnType := some ret }
  | .constant _ _ => { info with functionReturnType := none }

def Item.check (info : Info) (item : Item) : CheckM Bool :=
  match item with
  | .function ret body => body.fold (Divergence.check (item.context info)) ret
  | .constant ty expr => expr.fold (Divergence.check (item.context info)) ty

def Item.nodes : Item → List Node
  | .function _ body => body.nodes
  | .constant _ expr => expr.nodes

/-- The parser makes a block of an `if` after `else` or `=>`, with the id of the `if`. -/
def Wraps (n m : Node) : Prop :=
  ∃ id c t e, n = .block (.mk id [] (some (.ifElse id c t e))) ∧ m = .ifElse id t e

/-- Nodes with the same id are the same, or a block around an `if`. -/
def DistinctIds (ns : List Node) : Prop :=
  ∀ n ∈ ns, ∀ m ∈ ns, n.id = m.id → n = m ∨ Wraps n m ∨ Wraps m n

/-! ### The flags -/

theorem Wraps.leaves {n m : Node} (h : Wraps n m) : n.leaves = m.leaves := by
  obtain ⟨id, c, t, e, rfl, rfl⟩ := h
  show Block.leaves _ _ = _
  rw [Block.leaves_mk]
  simp [Expr.leaves_ifElse, Node.leaves]

theorem DistinctIds.leaves {ns : List Node} (h : DistinctIds ns) {n m : Node} (hn : n ∈ ns)
    (hm : m ∈ ns) (hid : n.id = m.id) : n.leaves = m.leaves := by
  rcases h n hn m hm hid with rfl | hw | hw
  · rfl
  · exact hw.leaves
  · exact hw.leaves.symm

variable {info : Info} {items : List Item} {flags : List (MetaId × Bool)}

/-- The checker does not give up on `m`. -/
def Accepted {α : Type} (m : CheckM α) : Prop := ∃ σ r, m σ = some r

theorem not_accepted_failure {α : Type} : ¬ Accepted (failure : CheckM α) := by
  rintro ⟨σ, r, h⟩
  cases h

theorem Accepted.unifyUnit {t : Typ} (h : Accepted (unifyUnit t)) : .unit = t ∨ t = .never := by
  unfold Divergence.unifyUnit at h
  split_ifs at h with ht
  · exact ht.imp_left Eq.symm
  · exact absurd h not_accepted_failure

/-- The blocks that are flagged leave by a part that is run. -/
def Sure (ns : List Node) : Prop :=
  ∀ b, .block b ∈ ns → b.leaves .all = true → b.leaves .sure = true

/-- The unit value has the unit type, the value of an expression the type that the checker
has recorded for it. -/
def Value.HasType (info : Info) : Value → Typ → Prop
  | .unit, t => t = .unit
  | .of id, t => info.types id = t

variable {Γ : Context}

/-- A value that the checker takes where `expected` is; where that is `!` it takes any. -/
def Fits (Γ : Context) (expected : Typ) (v : Value) : Prop :=
  v.HasType Γ.toInfo expected ∨ expected = .never

def ExitFits (Γ : Context) : Exit → Prop
  | .returned kind v => ∃ expected, Γ.returned kind = some expected ∧ Fits Γ expected v
  | .none => (Γ.functionReturnType.bind optionType).isSome

def ExprFits (Γ : Context) (e : Expr) : Prop :=
  ∀ t, Accepted (e.fold (check Γ) t) → Sure e.nodes →
    Satisfies (e.fold (exec Γ.variants)) (Fits Γ t) (ExitFits Γ)

theorem fits_pure {t : Typ} {v : Value} (h : Fits Γ t v) :
    Satisfies (.pure v : Runs) (Fits Γ t) (ExitFits Γ) :=
  Satisfies.pure h

/-- One expression, whose value is not the value of the node. -/
theorem fits_one {e : Expr} (h : ExprFits Γ e) (hacc : Accepted (e.fold (check Γ) (Γ.types e.id)))
    (hsure : Sure e.nodes) {t : Typ} {v : Value} (hv : Fits Γ t v) :
    Satisfies (allRuns v [(e, e.fold (exec Γ.variants))]) (Fits Γ t) (ExitFits Γ) :=
  (h _ hacc hsure).seq (fits_pure hv)

/-- An execution comes to a value of the declared type. No value has type `!`. -/
def Declared (Γ : Context) : Lib.Outcome Exit Value → Prop
  | .value v => ∃ t, Γ.functionReturnType = some t ∧ v.HasType Γ.toInfo t ∧ t ≠ .never
  | .exit (.returned kind v) =>
    ∃ t, Γ.returned kind = some t ∧ v.HasType Γ.toInfo t ∧ t ≠ .never
  | .exit .none => (Γ.functionReturnType.bind optionType).isSome

/-- No condition, guard or examinee leaves, and no arm is unreachable. -/
def Plain (info : Info) (items : List Item) : Prop :=
  ∀ b, .block b ∈ items.flatMap Item.nodes → b.plain info.variants = true

def u32 : Typ := .named "u32" []

/-- `c` -/
def condition (id : MetaId) : Expr := .path id ⟨id, [⟨"c", id⟩]⟩

/-- `return 1` -/
def returnOne (id : MetaId) : Expr :=
  .return id .return (some (.literal (id + 1) ⟨.integer 1 none, id + 1⟩))

/-- `{ return 1; }` -/
def thenBlock (id : MetaId) : Block := .mk id [.expr (returnOne (id + 1))] none

end Roto.TypeChecker.Divergence
