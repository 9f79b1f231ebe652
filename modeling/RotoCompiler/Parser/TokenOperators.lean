import RotoCompiler.Parser.OperatorParsing
import RotoCompiler.Parser.ReturnedValues

/-!
# Operators among tokens

The parser of expressions does on the tokens what the parser of operators does on operands.
It gives an id to each operation once both of its sides are parsed.
-/

namespace Roto.Parser
open Ast (BinOp)

def operatorToken : BinOp → Token
  | .and => .ampAmp
  | .or => .pipePipe
  | .eq => .eqEq
  | .ne => .bangEq
  | .lt => .angleLeft
  | .le => .angleLeftEq
  | .gt => .angleRight
  | .ge => .angleRightEq
  | .add => .plus
  | .sub => .hyphen
  | .mul => .star
  | .div => .slash
  | .mod => .percent

/-- An operand is followed by an operator, or by what ends the expression. -/
def EndsOperand (ts : List Taken) : Prop :=
  ∀ t rest, ts = .token t :: rest → Parse.continues t = true → ∃ op, t = operatorToken op

/-- Tokens that `negation` takes for one operand: the expression and the next id, from the id
before it, at this depth and below. -/
structure Operand (ext : Externals) (r : Restrictions) where
  tokens : List Taken
  made : MetaId → Ast.Expr × MetaId
  depth : ℕ
  parsed : ∀ d, depth ≤ d → ∀ rest, EndsOperand rest → ∀ id,
    Parse.negation ext d r ⟨tokens ++ rest, id⟩ = .ok ((made id).1, ⟨rest, (made id).2⟩)

variable {ext : Externals} {r : Restrictions}

/-- The expression of a tree of operands, and the id after it. -/
def build : Expr (Operand ext r) → MetaId → Ast.Expr × MetaId
  | .leaf a, id => a.made id
  | .node lhs op rhs, id =>
    let left := build lhs id
    let right := build rhs left.2
    (.binOp right.2 left.1 op right.1, right.2 + 1)

def OperatorError.toParseError : OperatorError → ParseError
  | .noOperand => .endOfInput
  | .custom description label note => .custom description label (some note)

/-- Operators with the operands after them, before the tokens in `stop`. -/
def render (ps : Operations (Operand ext r)) (stop : List Taken) : List Taken :=
  match ps with
  | [] => stop
  | p :: ps => .token (operatorToken p.1) :: (p.2.tokens ++ render ps stop)

/-- A depth that is enough for the loop over these. -/
def loopDepth : Operations (Operand ext r) → ℕ
  | [] => 1
  | p :: ps => p.2.depth + loopDepth ps + 2

theorem loopDepth_suffix {ps ps' : Operations (Operand ext r)} (h : ps' <:+ ps) :
    loopDepth ps' ≤ loopDepth ps := by
  induction ps with
  | nil =>
    obtain rfl := List.suffix_nil.mp h
    exact le_rfl
  | cons p ps ih =>
    rcases List.suffix_cons_iff.mp h with rfl | h
    · exact le_rfl
    · have hle := ih h
      rw [loopDepth]
      omega

variable {stop : List Taken} {prev : Option BinOp} {lhs : Ast.Expr} {id : MetaId} {d : ℕ}

theorem endsOperand_render (hstop : Parse.Stops stop) (ps : Operations (Operand ext r)) :
    EndsOperand (render ps stop) := by
  intro t rest heq hcont
  cases ps with
  | nil =>
    have hends := hstop t rest heq
    rw [hcont] at hends
    cases hends
  | cons p ps =>
    obtain ⟨htoken, -⟩ := List.cons.inj heq
    exact ⟨p.1, (Taken.token.inj htoken).symm⟩

/-! ### One round of the loop -/

theorem peekBinop_operator (op : BinOp) (ts : List Taken) :
    Parse.peekBinop ⟨.token (operatorToken op) :: ts, id⟩ =
      .ok (some op, ⟨.token (operatorToken op) :: ts, id⟩) := by
  cases op <;> rfl

theorem peekBinop_stop (h : Parse.Stops stop) :
    Parse.peekBinop ⟨stop, id⟩ = .ok (none, ⟨stop, id⟩) := by
  cases stop with
  | nil => rfl
  | cons taken rest =>
    cases taken with
    | token t =>
      have hstop := h t rest rfl
      cases t <;> first | rfl | cases hstop
    | invalid => rfl
    | fString part => rfl

theorem tokenLoop_stops (h : Parse.Stops stop) (hd : 1 ≤ d) :
    Parse.binopLoop ext d prev lhs r ⟨stop, id⟩ = .ok (lhs, ⟨stop, id⟩) := by
  obtain ⟨d, rfl⟩ := Nat.exists_eq_add_of_le' hd
  rw [Parse.binopLoop, Parse.bind_ok (peekBinop_stop h)]
  rfl

theorem tokenLoop_left {op : BinOp} (h : onOperator prev op = .left) (ts : List Taken)
    (hd : 1 ≤ d) :
    Parse.binopLoop ext d prev lhs r ⟨.token (operatorToken op) :: ts, id⟩ =
      .ok (lhs, ⟨.token (operatorToken op) :: ts, id⟩) := by
  obtain ⟨d, rfl⟩ := Nat.exists_eq_add_of_le' hd
  rw [Parse.binopLoop, Parse.bind_ok (peekBinop_operator op ts)]
  simp only [h]
  rfl

theorem tokenLoop_not {p op : BinOp} (h : onOperator (some p) op = .not) (ts : List Taken)
    (hd : 1 ≤ d) :
    Parse.binopLoop ext d (some p) lhs r ⟨.token (operatorToken op) :: ts, id⟩ =
      .error (Parse.notChained op p) := by
  obtain ⟨d, rfl⟩ := Nat.exists_eq_add_of_le' hd
  rw [Parse.binopLoop, Parse.bind_ok (peekBinop_operator op ts)]
  simp only [h]
  rfl

theorem tokenLoop_right {op : BinOp} (h : onOperator prev op = .right) (ts : List Taken) :
    Parse.binopLoop ext (d + 1) prev lhs r ⟨.token (operatorToken op) :: ts, id⟩ =
      (Parse.binopExpr ext d (some op) r ⟨ts, id⟩).bind fun p =>
        Parse.binopLoop ext d prev (.binOp p.2.nextId lhs op p.1) r
          ⟨p.2.tokens, p.2.nextId + 1⟩ := by
  rw [Parse.binopLoop, Parse.bind_ok (peekBinop_operator op ts)]
  cases prev with
  | none => rfl
  | some p =>
    simp only [h]
    rfl

/-! ### The whole loop -/

/-- What the loop over tokens comes to, when the loop over operands comes to `result`. -/
def TokenLoop (stop : List Taken) (prev : Option BinOp) (lhs : Expr (Operand ext r))
    (ps : Operations (Operand ext r)) :
    Except OperatorError (Expr (Operand ext r) × List (Tok (Operand ext r))) → Prop
  | .ok (t, rest) => ∃ ps', ps' <:+ ps ∧ rest = tokens ps' ++ [.other] ∧
    ∀ d id, loopDepth ps ≤ d →
      Parse.binopLoop ext d prev (build lhs id).1 r ⟨render ps stop, (build lhs id).2⟩ =
        .ok ((build t id).1, ⟨render ps' stop, (build t id).2⟩)
  | .error e => ∀ d id, loopDepth ps ≤ d →
    Parse.binopLoop ext d prev (build lhs id).1 r ⟨render ps stop, (build lhs id).2⟩ =
      .error e.toParseError

theorem stops_other {A : Type} : Stops ([.other] : List (Tok A)) := fun _ _ h => nomatch h

theorem tokenExpr_eq (hstop : Parse.Stops stop) (a : Operand ext r)
    (ps : Operations (Operand ext r)) (hd : a.depth ≤ d) :
    Parse.binopExpr ext (d + 1) prev r ⟨a.tokens ++ render ps stop, id⟩ =
      Parse.binopLoop ext d prev (build (.leaf a) id).1 r
        ⟨render ps stop, (build (.leaf a) id).2⟩ := by
  have hparsed := a.parsed d hd _ (endsOperand_render hstop ps) id
  rw [Parse.binopExpr, Parse.bind_ok hparsed]
  rfl

theorem loop_chained {A : Type} {lhs : Expr A} {toks : List (Tok A)} {p op : BinOp}
    (h : onOperator (some p) op = .not) :
    (binopLoop (some p) lhs (.op op :: toks)).map Subtype.val = .error (cannotBeChained op p) := by
  rw [binopLoop.eq_def]
  simp only [h]
  rfl

/-- By induction on the number of operations, as the loop for the operand of an operator takes
some of them and leaves the others to this one. -/
theorem tokenLoop_spec (hstop : Parse.Stops stop) (n : ℕ) {ps : Operations (Operand ext r)}
    (hn : ps.length ≤ n) (prev : Option BinOp) (lhs : Expr (Operand ext r)) :
    TokenLoop stop prev lhs ps
      ((binopLoop prev lhs (tokens ps ++ [.other])).map Subtype.val) := by
  induction n generalizing ps prev lhs with
  | zero =>
    obtain rfl := List.eq_nil_of_length_eq_zero (Nat.le_zero.mp hn)
    rw [tokens, List.flatMap_nil, List.nil_append, loop_stops stops_other]
    exact ⟨[], List.suffix_refl _, rfl, fun d id hd => tokenLoop_stops hstop hd⟩
  | succ n ih =>
    cases ps with
    | nil => exact @ih [] (Nat.zero_le n) prev lhs
    | cons x ps =>
      obtain ⟨op, a⟩ := x
      have hps : ps.length ≤ n := Nat.le_of_succ_le_succ hn
      have hdepth : loopDepth ((op, a) :: ps) = a.depth + loopDepth ps + 2 := rfl
      rw [tokens_cons, List.cons_append, List.cons_append]
      rcases onOperator_cases prev op with ⟨hon, -⟩ | ⟨hon, -, p, hp, -⟩ | ⟨hon, -⟩
      · rw [loop_right hon]
        have hfirst := ih hps (some op) (.leaf a)
        -- the operand of the operator, from any id
        have hround : ∀ d id, loopDepth ((op, a) :: ps) ≤ d + 2 →
            Parse.binopLoop ext (d + 2) prev (build lhs id).1 r
              ⟨render ((op, a) :: ps) stop, (build lhs id).2⟩ =
            (Parse.binopLoop ext d (some op) (build (.leaf a) (build lhs id).2).1 r
              ⟨render ps stop, (build (.leaf a) (build lhs id).2).2⟩).bind fun q =>
                Parse.binopLoop ext (d + 1) prev
                  (.binOp q.2.nextId (build lhs id).1 op q.1) r
                  ⟨q.2.tokens, q.2.nextId + 1⟩ := by
          intro d id hd
          rw [render, tokenLoop_right hon, tokenExpr_eq hstop a ps (by omega)]
        cases hloop : (binopLoop (some op) (.leaf a) (tokens ps ++ [.other])).map Subtype.val with
        | error e =>
          rw [hloop] at hfirst
          intro d id hd
          obtain ⟨d, rfl⟩ := Nat.exists_eq_add_of_le' (show 2 ≤ d by omega)
          rw [hround d id hd, hfirst d _ (by omega)]
          rfl
        | ok q =>
          obtain ⟨rhs, rest⟩ := q
          rw [hloop] at hfirst
          obtain ⟨ps₁, hsuffix, rfl, hrun⟩ := hfirst
          have hle := loopDepth_suffix hsuffix
          have hsecond := ih (hsuffix.length_le.trans hps) prev (.node lhs op rhs)
          show TokenLoop stop prev lhs _ ((binopLoop prev (.node lhs op rhs)
            (tokens ps₁ ++ [.other])).map Subtype.val)
          have hnext : ∀ d id, loopDepth ((op, a) :: ps) ≤ d + 2 →
              Parse.binopLoop ext (d + 2) prev (build lhs id).1 r
                ⟨render ((op, a) :: ps) stop, (build lhs id).2⟩ =
              Parse.binopLoop ext (d + 1) prev (build (.node lhs op rhs) id).1 r
                ⟨render ps₁ stop, (build (.node lhs op rhs) id).2⟩ := by
            intro d id hd
            rw [hround d id hd, hrun d _ (by omega)]
            rfl
          cases hloop' : (binopLoop prev (.node lhs op rhs) (tokens ps₁ ++ [.other])).map
              Subtype.val with
          | error e =>
            rw [hloop'] at hsecond
            intro d id hd
            obtain ⟨d, rfl⟩ := Nat.exists_eq_add_of_le' (show 2 ≤ d by omega)
            rw [hnext d id hd, hsecond (d + 1) id (by omega)]
          | ok q =>
            obtain ⟨t, rest⟩ := q
            rw [hloop'] at hsecond
            obtain ⟨ps₂, hsuffix', rfl, hrun'⟩ := hsecond
            refine ⟨ps₂, (hsuffix'.trans hsuffix).trans (List.suffix_cons _ _), rfl, ?_⟩
            intro d id hd
            obtain ⟨d, rfl⟩ := Nat.exists_eq_add_of_le' (show 2 ≤ d by omega)
            rw [hnext d id hd, hrun' (d + 1) id (by omega)]
      · obtain rfl := Option.mem_def.mp hp
        rw [loop_chained hon]
        exact fun d id hd => tokenLoop_not hon _ (by omega)
      · rw [loop_left hon]
        exact ⟨(op, a) :: ps, List.suffix_refl _, rfl, fun d id hd =>
          tokenLoop_left hon _ (by omega)⟩

/-- On the tokens of an expression the parser has the tree that the operators make of its
operands, with an id for each of them, or the error for two operators that clash. -/
theorem binopExpr_tokens (hstop : Parse.Stops stop) (a : Operand ext r)
    (ps : Operations (Operand ext r)) (hd : a.depth + loopDepth ps + 1 ≤ d) (id : MetaId) :
    Parse.binopExpr ext d none r ⟨a.tokens ++ render ps stop, id⟩ =
      match (binopExpr none (.operand a :: (tokens ps ++ [.other]))).map Subtype.val with
      | .ok (t, _) => .ok ((build t id).1, ⟨stop, (build t id).2⟩)
      | .error e => .error e.toParseError := by
  obtain ⟨d, rfl⟩ := Nat.exists_eq_add_of_le' (show 1 ≤ d by omega)
  have hspec := tokenLoop_spec hstop ps.length le_rfl none (.leaf a)
  rw [tokenExpr_eq hstop a ps (by omega), binopExpr_operand]
  cases hloop : (binopLoop none (.leaf a) (tokens ps ++ [.other])).map Subtype.val with
  | error e =>
    rw [hloop] at hspec
    exact hspec d id (by omega)
  | ok q =>
    obtain ⟨t, rest⟩ := q
    rw [hloop] at hspec
    obtain ⟨ps', -, rfl, hrun⟩ := hspec
    -- no operator is left over
    have hnil : ps' = [] := by
      by_cases haccepts : Accepts none ps
      · obtain ⟨t', ht', -⟩ := (loop_spec ps.length le_rfl stops_other none (.leaf a)).1 haccepts
        rw [hloop, (belongs_none ps).2] at ht'
        have hrest := (Prod.mk.inj (Except.ok.inj ht')).2
        cases ps' with
        | nil => rfl
        | cons p ps' => cases hrest
      · obtain ⟨e, he⟩ := (loop_spec ps.length le_rfl stops_other none (.leaf a)).2 haccepts
        rw [hloop] at he
        cases he
    subst hnil
    exact hrun d id (by omega)

/-! ### An operand -/

theorem endsOperand_accessLoop {ts : List Taken} (h : EndsOperand ts) (e : Ast.Expr) :
    Parse.accessLoop ext (d + 1) e ⟨ts, id⟩ = .ok (e, ⟨ts, id⟩) := by
  have hno : ∀ t rest, ts = .token t :: rest → t = .questionMark ∨ t = .roundLeft ∨ t = .period →
      False := by
    intro t rest heq ht
    have hcont : Parse.continues t = true := by rcases ht with rfl | rfl | rfl <;> rfl
    obtain ⟨op, rfl⟩ := h t rest heq hcont
    cases op <;> simp [operatorToken] at ht
  cases ts with
  | nil => rfl
  | cons taken rest =>
    cases taken with
    | token t =>
      have hthis := hno t rest rfl
      cases t <;> first | rfl | exact absurd hthis (by simp)
    | invalid => rfl
    | fString part => rfl

/-- `true` and `false` are operands. -/
def Operand.bool (ext : Externals) (r : Restrictions) (b : Bool) : Operand ext r where
  tokens := [.token (.bool b)]
  made id := (.literal id ⟨.bool b, id⟩, id + 1)
  depth := 3
  parsed d hd rest hrest id := by
    obtain ⟨d, rfl⟩ := Nat.exists_eq_add_of_le' hd
    have hatom : Parse.atom ext (d + 1) r ⟨.token (.bool b) :: rest, id⟩ =
        .ok (.literal id ⟨.bool b, id⟩, ⟨rest, id + 1⟩) :=
      rfl
    have haccess : Parse.access ext (d + 2) r ⟨.token (.bool b) :: rest, id⟩ =
        .ok (.literal id ⟨.bool b, id⟩, ⟨rest, id + 1⟩) := by
      rw [Parse.access, Parse.bind_ok hatom]
      exact endsOperand_accessLoop hrest _
    exact haccess

/-- `true || false && true` is refused. -/
example : Parse.binopExpr Parse.noExternals 20 none ⟨false⟩
    ⟨[.token (.bool true), .token .pipePipe, .token (.bool false), .token .ampAmp,
      .token (.bool true), .token .semiColon], 0⟩ = .error (Parse.notChained .and .or) := by
  have hstop : Parse.Stops [.token .semiColon] := by
    intro t rest h
    obtain rfl := Taken.token.inj (List.cons.inj h).1
    rfl
  have h := binopExpr_tokens (d := 20) hstop (.bool Parse.noExternals ⟨false⟩ true)
    [(.or, .bool _ _ false), (.and, .bool _ _ true)] (by decide) 0
  rw [binopExpr_operand, tokens_cons, List.cons_append, List.cons_append, loop_right rfl,
    tokens_cons, List.cons_append, loop_chained rfl] at h
  exact h

end Roto.Parser
