import RotoCompiler.Ast
import RotoCompiler.Lib.OperatorTree

/-!
# Binary operators (parser/expr.rs, parser/precedence.rs)

The input is cut into operands, which are what `negation` parses, and operators. Parsing an
expression passes the operator before it down, as a bound for the operators that belong to it.
-/

namespace Roto.Ast

/-- `Display` for operators. -/
def BinOp.display : BinOp → String
  | and => "&&"
  | or => "||"
  | eq => "=="
  | ne => "!="
  | lt => "<="
  | le => "<"
  | gt => ">="
  | ge => "<"
  | add => "+"
  | sub => "-"
  | mul => "*"
  | div => "/"
  | mod => "%"

end Roto.Ast

namespace Roto.Parser
open Ast (BinOp)

/-! ### Precedence -/

/-- `Precedence`, in the order of its variants. -/
inductive Precedence where
  | logical | comparison | addSub | mulDiv
  deriving DecidableEq, Repr

def Precedence.rank : Precedence → ℕ
  | logical => 0
  | comparison => 1
  | addSub => 2
  | mulDiv => 3

inductive Associativity where
  | left | right | not
  deriving DecidableEq, Repr

def precedence : BinOp → Precedence
  | .or | .and => .logical
  | .eq | .ne | .lt | .le | .gt | .ge => .comparison
  | .mul | .div | .mod => .mulDiv
  | .add | .sub => .addSub

def associativity (op : BinOp) : Associativity :=
  match precedence op with
  | .addSub | .mulDiv | .logical => .left
  | .comparison => .not

def relativeAssociativity (op other : BinOp) : Associativity :=
  match op, other with
  | .or, .and | .and, .or => .not
  | _, _ =>
    match compare (precedence op).rank (precedence other).rank with
    | .lt => .right
    | .gt => .left
    | .eq => associativity op

/-! ### The parser -/

variable {A : Type}

/-- `Expr::BinOp` over the operands. -/
abbrev Expr (A : Type) := OperatorTree BinOp A

/-- The rest of the input: operands, operators, and whatever ends an expression. -/
inductive Tok (A : Type) where
  | operand (a : A)
  | op (op : BinOp)
  | other
  deriving Repr

inductive OperatorError where
  /-- The error of `negation`, where there is no operand. -/
  | noOperand
  | custom (description label note : String)
  deriving DecidableEq, Repr

def cannotBeChained (op prev : BinOp) : OperatorError :=
  .custom s!"`{op.display}` cannot be chained with `{prev.display}`"
    s!"cannot be chained with `{prev.display}`"
    "Try to disambiguate the expression with parentheses."

/-- What the loop does with the next operator, after the operator `prev`. -/
def onOperator (prev : Option BinOp) (op : BinOp) : Associativity :=
  match prev with
  | none => .right
  | some prev => relativeAssociativity prev op

mutual

/-- `Parser::binop_expr`. -/
def binopExpr (prev : Option BinOp) (toks : List (Tok A)) :
    Except OperatorError { r : Expr A × List (Tok A) // r.2.length < toks.length } :=
  match toks with
  | .operand a :: rest =>
    match binopLoop prev (.leaf a) rest with
    | .error e => .error e
    | .ok ⟨r, h⟩ => .ok ⟨r, Nat.lt_succ_of_le h⟩
  | [] => .error .noOperand
  | .op _ :: _ => .error .noOperand
  | .other :: _ => .error .noOperand
termination_by 2 * toks.length

/-- Its loop. -/
def binopLoop (prev : Option BinOp) (lhs : Expr A) (toks : List (Tok A)) :
    Except OperatorError { r : Expr A × List (Tok A) // r.2.length ≤ toks.length } :=
  match toks with
  | .op op :: rest =>
    match onOperator prev op with
    | .left => .ok ⟨(lhs, .op op :: rest), le_rfl⟩
    | .not => .error (match prev with
      | some prev => cannotBeChained op prev
      | none => .noOperand)
    | .right =>
      match binopExpr (some op) rest with
      | .error e => .error e
      | .ok ⟨(rhs, rest'), h⟩ =>
        have h : rest'.length < rest.length := h
        match binopLoop prev (.node lhs op rhs) rest' with
        | .error e => .error e
        | .ok ⟨r, h'⟩ => .ok ⟨r, h'.trans (h.le.trans (Nat.le_succ _))⟩
  | [] => .ok ⟨(lhs, []), le_rfl⟩
  | .operand a :: rest => .ok ⟨(lhs, .operand a :: rest), le_rfl⟩
  | .other :: rest => .ok ⟨(lhs, .other :: rest), le_rfl⟩
termination_by 2 * toks.length + 1
decreasing_by
  all_goals simp only [List.length_cons]
  all_goals omega

end

/-! ### Acceptance and shape -/

/-- Two comparisons, or a conjunction and a disjunction. -/
def Clash (p q : BinOp) : Prop :=
  (precedence p = .comparison ∧ precedence q = .comparison) ∨ (p = .and ∧ q = .or) ∨
    (p = .or ∧ q = .and)

/-- Operators in the order of how tight they bind. -/
def rank (op : BinOp) : ℕ := (precedence op).rank

theorem Clash.rank_eq (p q : BinOp) (h : Clash p q) : rank p = rank q := by
  rcases h with ⟨hp, hq⟩ | ⟨rfl, rfl⟩ | ⟨rfl, rfl⟩
  · rw [rank, hp, rank, hq]
  · rfl
  · rfl

/-- The cases of `relative_associativity`. -/
theorem relativeAssociativity_cases (p q : BinOp) :
    (relativeAssociativity p q = .right ∧ rank p < rank q) ∨
    (relativeAssociativity p q = .not ∧ Clash p q) ∨
    (relativeAssociativity p q = .left ∧ rank q ≤ rank p ∧ ¬ Clash p q) := by
  cases p <;> cases q <;>
    simp [relativeAssociativity, rank, Clash, precedence, Precedence.rank, associativity, compare,
      compareOfLessAndEq]

/-- The operator belongs to the operand after `prev`. -/
def belongs (prev : Option BinOp) (op : BinOp) : Bool := prev.all fun p => rank p < rank op

end Roto.Parser
