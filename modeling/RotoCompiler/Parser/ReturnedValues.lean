import RotoCompiler.Parser.Expressions

/-!
# Values of `return`, `accept` and `reject`

`atom` looks at one token to decide whether a value follows. All other productions decide what
an expression can start with by trying them in turn.
-/

namespace Roto.Parser.Parse
open Ast (ReturnKind)

variable {α β : Type}

theorem bind_apply (m : Parse α) (f : α → Parse β) (s : ParserState) :
    (m >>= f) s = (m s).bind fun r => f r.1 r.2 := rfl

@[simp] theorem bind_ok {m : Parse α} {s s' : ParserState} {a : α} (h : m s = .ok (a, s'))
    (f : α → Parse β) : (m >>= f) s = f a s' := by
  rw [bind_apply, h]
  rfl

theorem bind_eq_ok {m : Parse α} {f : α → Parse β} {s : ParserState} {r : β × ParserState}
    (h : (m >>= f) s = .ok r) : ∃ a s', m s = .ok (a, s') ∧ f a s' = .ok r := by
  rw [bind_apply] at h
  cases hm : m s with
  | error e =>
    rw [hm] at h
    cases h
  | ok p =>
    rw [hm] at h
    exact ⟨p.1, p.2, rfl, h⟩

theorem peekIs_eq (t : Token) (s : ParserState) :
    peekIs t s = .ok (decide (s.tokens.head? = some (.token t)), s) := by
  obtain ⟨tokens, id⟩ := s
  cases tokens with
  | nil => rfl
  | cons taken rest =>
    cases taken with
    | token t' =>
      have hpeek : peekIs t ⟨.token t' :: rest, id⟩ =
          .ok (some t' == some t, ⟨.token t' :: rest, id⟩) :=
        rfl
      rw [hpeek]
      by_cases h : t' = t <;> simp [h]
    | invalid => rfl
    | fString part => rfl

theorem nextIs_of_ne {t : Token} {s : ParserState} (h : s.tokens.head? ≠ some (.token t)) :
    nextIs t s = .ok (false, s) := by
  rw [nextIs, bind_ok (peekIs_eq t s), decide_eq_false h]
  rfl

/-! ### The first token -/

/-- The tokens that the productions of an expression start with. -/
def startsExpression (t : Token) : Bool :=
  canStartExpression t || (returnKind t).isSome || (startsPath t && t ≠ .keyword .std) ||
    match t with
    | .keyword .if_ | .keyword .match_ | .keyword .while_ | .keyword .for_ => true
    | .fStringStart | .hex _ | .char _ => true
    | _ => false

variable {ext : Externals} {ts : List Taken} {id : MetaId}

theorem atom_fails {t : Token} (h : startsExpression t = false) (depth : ℕ) (r : Restrictions) :
    ∃ e, atom ext depth r ⟨.token t :: ts, id⟩ = .error e := by
  cases depth with
  | zero => exact ⟨_, rfl⟩
  | succ depth =>
    cases t with
    | keyword kw => cases kw <;> first | exact ⟨_, rfl⟩ | cases h
    | _ => first | exact ⟨_, rfl⟩ | cases h

theorem atom_ends (depth : ℕ) (r : Restrictions) {taken : Taken} (h : ∀ t, taken ≠ .token t) :
    (∃ e, atom ext depth r ⟨[], id⟩ = .error e) ∧
      ∃ e, atom ext depth r ⟨taken :: ts, id⟩ = .error e := by
  cases depth with
  | zero => exact ⟨⟨_, rfl⟩, _, rfl⟩
  | succ depth =>
    cases taken with
    | token t => exact absurd rfl (h t)
    | invalid => exact ⟨⟨_, rfl⟩, _, rfl⟩
    | fString part => exact ⟨⟨_, rfl⟩, _, rfl⟩

/-- An atom starts with one of these tokens. -/
theorem atom_starts {depth : ℕ} {r : Restrictions} {s : ParserState} {res : Ast.Expr × ParserState}
    (h : atom ext depth r s = .ok res) :
    ∃ t rest, s.tokens = .token t :: rest ∧ startsExpression t = true := by
  obtain ⟨tokens, id⟩ := s
  have hno : ∀ {m : Except ParseError (Ast.Expr × ParserState)}, (∃ e, m = .error e) →
      m ≠ .ok res := by
    rintro m ⟨e, rfl⟩ hok
    cases hok
  cases tokens with
  | nil => exact absurd h (hno (@atom_ends ext [] id depth r .invalid (by simp)).1)
  | cons taken rest =>
    cases taken with
    | token t =>
      refine ⟨t, rest, rfl, ?_⟩
      by_contra hstart
      exact absurd h (hno (atom_fails (Bool.eq_false_iff.mpr hstart) depth r))
    | invalid => exact absurd h (hno (atom_ends depth r (by simp)).2)
    | fString part => exact absurd h (hno (atom_ends depth r (by simp)).2)

/-- A unary operator, or an atom. -/
theorem negation_starts {depth : ℕ} {r : Restrictions} {s : ParserState}
    {res : Ast.Expr × ParserState} (h : negation ext depth r s = .ok res) :
    ∃ t rest, s.tokens = .token t :: rest ∧ startsExpression t = true := by
  cases depth with
  | zero => cases h
  | succ depth =>
    obtain ⟨tokens, id⟩ := s
    by_cases hbang : tokens.head? = some (.token .bang)
    · obtain ⟨rest, rfl⟩ := List.head?_eq_some_iff.mp hbang
      exact ⟨_, _, rfl, rfl⟩
    by_cases hhyphen : tokens.head? = some (.token .hyphen)
    · obtain ⟨rest, rfl⟩ := List.head?_eq_some_iff.mp hhyphen
      exact ⟨_, _, rfl, rfl⟩
    rw [negation, bind_ok (peekIs_eq _ _), decide_eq_false hbang] at h
    simp only [Bool.false_eq_true, if_false] at h
    rw [bind_ok (peekIs_eq _ _), decide_eq_false hhyphen] at h
    simp only [Bool.false_eq_true, if_false] at h
    cases depth with
    | zero => cases h
    | succ depth =>
      obtain ⟨e, s', hatom, -⟩ := bind_eq_ok h
      exact atom_starts hatom

theorem expr_starts {depth : ℕ} {r : Restrictions} {s : ParserState}
    {res : Ast.Expr × ParserState} (h : assignExpr ext depth r s = .ok res) :
    ∃ t rest, s.tokens = .token t :: rest ∧ startsExpression t = true := by
  cases depth with
  | zero => cases h
  | succ depth =>
    obtain ⟨left, s₁, hleft, -⟩ := bind_eq_ok h
    cases depth with
    | zero => cases hleft
    | succ depth =>
      obtain ⟨lhs, s₂, hlhs, -⟩ := bind_eq_ok hleft
      exact negation_starts hlhs

/-! ### Around an atom -/

/-- The tokens after an atom that it belongs with. -/
def continues (t : Token) : Bool :=
  match t with
  | .questionMark | .roundLeft | .period | .eq | .plusEq | .minusEq | .starEq | .slashEq
  | .percentEq => true
  | .ampAmp | .pipePipe | .eqEq | .bangEq | .angleLeftEq | .angleRightEq | .angleLeft
  | .angleRight | .plus | .hyphen | .star | .slash | .percent => true
  | _ => false

/-- The parser stops before what comes next. -/
def Stops (tokens : List Taken) : Prop := ∀ t rest, tokens = .token t :: rest → continues t = false

theorem stops_accessLoop (h : Stops ts) (depth : ℕ) (e : Ast.Expr) :
    accessLoop ext (depth + 1) e ⟨ts, id⟩ = .ok (e, ⟨ts, id⟩) := by
  cases ts with
  | nil => rfl
  | cons taken rest =>
    cases taken with
    | token t =>
      have hstop := h t rest rfl
      cases t <;> first | rfl | cases hstop
    | invalid => rfl
    | fString part => rfl

theorem stops_binopLoop (h : Stops ts) (depth : ℕ) (e : Ast.Expr) (r : Restrictions) :
    binopLoop ext (depth + 1) none e r ⟨ts, id⟩ = .ok (e, ⟨ts, id⟩) := by
  cases ts with
  | nil => rfl
  | cons taken rest =>
    cases taken with
    | token t =>
      have hstop := h t rest rfl
      cases t <;> first | rfl | cases hstop
    | invalid => rfl
    | fString part => rfl

/-- Where the parser stops behind an atom that is no unary operation, the expression is the
atom. -/
theorem assignExpr_of_atom {t : Token} {e : Ast.Expr} {ts' : List Taken} {id' : MetaId} {depth : ℕ}
    {r : Restrictions} (hbang : t ≠ .bang) (hhyphen : t ≠ .hyphen) (hstop : Stops ts')
    (hatom : atom ext (depth + 1) r ⟨.token t :: ts, id⟩ = .ok (e, ⟨ts', id'⟩)) :
    assignExpr ext (depth + 5) r ⟨.token t :: ts, id⟩ = .ok (e, ⟨ts', id'⟩) := by
  have haccess : access ext (depth + 2) r ⟨.token t :: ts, id⟩ = .ok (e, ⟨ts', id'⟩) := by
    rw [access, bind_ok hatom]
    exact stops_accessLoop hstop depth e
  have hnegation : negation ext (depth + 3) r ⟨.token t :: ts, id⟩ = .ok (e, ⟨ts', id'⟩) := by
    have hbang' : (Taken.token t :: ts).head? ≠ some (.token .bang) := by simpa using hbang
    have hhyphen' : (Taken.token t :: ts).head? ≠ some (.token .hyphen) := by simpa using hhyphen
    rw [negation, bind_ok (peekIs_eq _ _), decide_eq_false hbang']
    simp only [Bool.false_eq_true, if_false]
    rw [bind_ok (peekIs_eq _ _), decide_eq_false hhyphen']
    simp only [Bool.false_eq_true, if_false]
    exact haccess
  have hbinop : binopExpr ext (depth + 4) none r ⟨.token t :: ts, id⟩ = .ok (e, ⟨ts', id'⟩) := by
    rw [binopExpr, bind_ok hnegation]
    exact stops_binopLoop hstop (depth + 2) e r
  have hne : ∀ t, continues t = true → ts'.head? ≠ some (.token t) := by
    intro t hcont heq
    obtain ⟨rest, rfl⟩ := List.head?_eq_some_iff.mp heq
    rw [hstop t rest rfl] at hcont
    cases hcont
  rw [assignExpr, bind_ok hbinop, bind_ok (nextIs_of_ne (hne _ rfl))]
  simp only [Bool.false_eq_true, if_false]
  rw [bind_ok (nextIs_of_ne (hne .plusEq rfl))]
  simp only [Bool.false_eq_true, if_false]
  rw [bind_ok (nextIs_of_ne (hne .minusEq rfl))]
  simp only [Bool.false_eq_true, if_false]
  rw [bind_ok (nextIs_of_ne (hne .starEq rfl))]
  simp only [Bool.false_eq_true, if_false]
  rw [bind_ok (nextIs_of_ne (hne .slashEq rfl))]
  simp only [Bool.false_eq_true, if_false]
  rw [bind_ok (nextIs_of_ne (hne .percentEq rfl))]
  rfl

/-! ### Returned values -/

def keywordOf : ReturnKind → Keyword
  | .return => .return_
  | .accept => .accept
  | .reject => .reject

theorem atom_return (kind : ReturnKind) (depth : ℕ) (r : Restrictions) :
    atom ext (depth + 1) r ⟨.token (.keyword (keywordOf kind)) :: ts, id⟩
      = (returnedValue (expr ext depth) ⟨ts, id⟩).bind fun v =>
        .ok (.return v.2.nextId kind v.1, { v.2 with nextId := v.2.nextId + 1 }) := by
  cases kind <;> rfl

/-- With a token that the value can start with, the value is parsed as an expression. -/
theorem returnedValue_some {t : Token} {e : Ast.Expr} {s' : ParserState} {value : Parse Ast.Expr}
    (hcan : canStartExpression t = true) (h : value ⟨.token t :: ts, id⟩ = .ok (e, s')) :
    returnedValue value ⟨.token t :: ts, id⟩ = .ok (some e, s') := by
  show (if canStartExpression t then do return some (← value) else return none : Parse _) _ = _
  rw [if_pos hcan, bind_ok h]
  rfl

theorem returnedValue_none {t : Token} {value : Parse Ast.Expr}
    (hcan : canStartExpression t = false) :
    returnedValue value ⟨.token t :: ts, id⟩ = .ok (none, ⟨.token t :: ts, id⟩) := by
  show (if canStartExpression t then do return some (← value) else return none : Parse _) _ = _
  rw [if_neg (by simp [hcan])]
  rfl

/-- The tokens from `id` on are parsed as one expression. -/
def Accepts (ext : Externals) (ts : List Taken) (id : MetaId) (e : Ast.Expr) (id' : MetaId) : Prop :=
  ∃ depth, expr ext depth ⟨ts, id⟩ = .ok (e, ⟨[], id'⟩)

/-- A token that cannot start an expression by the lookahead, and still starts one, ends it. -/
theorem stops_of_starts {t : Token} (h : startsExpression t = true)
    (hcan : canStartExpression t = false) (rest : List Taken) : Stops (.token t :: rest) := by
  intro t' rest' heq
  obtain rfl : t = t' := Taken.token.inj (List.cons.inj heq).1
  cases t <;> first | rfl | exact Bool.noConfusion hcan | cases h

theorem accepts_value {kind : ReturnKind} {t : Token} {e : Ast.Expr} {id' : MetaId}
    (hcan : canStartExpression t = true) (h : Accepts ext (.token t :: ts) id e id') :
    Accepts ext (.token (.keyword (keywordOf kind)) :: .token t :: ts) id
      (.return id' kind (some e)) (id' + 1) := by
  obtain ⟨depth, hexpr⟩ := h
  refine ⟨depth + 5, assignExpr_of_atom (by simp) (by simp) (fun t rest h => nomatch h) ?_⟩
  rw [atom_return, returnedValue_some hcan hexpr]
  rfl

/-- With another token the returned value is cut off, at every depth. -/
theorem not_accepts_value {kind : ReturnKind} {t : Token} {e : Ast.Expr} {id' : MetaId}
    (hstart : startsExpression t = true) (hcan : canStartExpression t = false) :
    ¬ Accepts ext (.token (.keyword (keywordOf kind)) :: .token t :: ts) id e id' := by
  rintro ⟨depth, h⟩
  match depth, h with
  | 0, h | 1, h | 2, h | 3, h | 4, h => cases h
  | depth + 5, h =>
    have hatom : atom ext (depth + 1) ⟨false⟩
        ⟨.token (.keyword (keywordOf kind)) :: .token t :: ts, id⟩
          = .ok (.return id kind none, ⟨.token t :: ts, id + 1⟩) := by
      rw [atom_return, returnedValue_none hcan]
      rfl
    have hexpr := assignExpr_of_atom (by simp) (by simp) (stops_of_starts hstart hcan ts) hatom
    have hrest := congrArg (fun r => r.map fun p => p.2.tokens) (hexpr.symm.trans h)
    cases hrest

theorem accepts_starts {e : Ast.Expr} {id' : MetaId} (h : Accepts ext ts id e id') :
    ∃ t rest, ts = .token t :: rest ∧ startsExpression t = true := by
  obtain ⟨depth, hexpr⟩ := h
  exact expr_starts hexpr

/-- A returned value is parsed as the expression it is if and only if the lookahead knows its
first token. -/
theorem returned_value_iff {e : Ast.Expr} {id' : MetaId} (kind : ReturnKind)
    (h : Accepts ext ts id e id') :
    Accepts ext (.token (.keyword (keywordOf kind)) :: ts) id (.return id' kind (some e)) (id' + 1)
      ↔ ∃ t rest, ts = .token t :: rest ∧ canStartExpression t = true := by
  obtain ⟨t, rest, rfl, hstart⟩ := accepts_starts h
  constructor
  · intro haccepts
    refine ⟨t, rest, rfl, ?_⟩
    by_contra hcan
    exact not_accepts_value hstart (Bool.eq_false_iff.mpr hcan) haccepts
  · rintro ⟨t', rest', heq, hcan⟩
    obtain ⟨htoken, -⟩ := List.cons.inj heq
    obtain rfl := Taken.token.inj htoken
    exact accepts_value hcan h

/-- Escapes and numbers are not looked at here. -/
def noExternals : Externals where
  parseF64 _ := .error "invalid float literal"
  parseIpv4 _ := .error "invalid IPv4 address syntax"
  parseIpv6 _ := .error "invalid IPv6 address syntax"
  unescapeStr s := .ok s
  unescapeChar
    | [c] => .ok c
    | _ => .error "empty character literal"

/-- `return 1` -/
theorem returned_value_iff_one :
    Accepts noExternals [.token (.keyword .return_), .token (.integer ['1'] [])] 0
        (.return 1 .return (some (.literal 0 ⟨.integer 1 none, 0⟩))) 2
      ↔ ∃ t rest, [Taken.token (.integer ['1'] [])] = .token t :: rest ∧
        canStartExpression t = true :=
  returned_value_iff .return ⟨7, rfl⟩

/-- `return 0x1` -/
theorem returned_hex_refused :
    ¬ ∀ (ext : Externals) (ts : List Taken) (id id' : MetaId) (e : Ast.Expr) (kind : ReturnKind),
      Accepts ext ts id e id' →
        Accepts ext (.token (.keyword (keywordOf kind)) :: ts) id (.return id' kind (some e))
          (id' + 1) := by
  intro h
  have haccepts : Accepts noExternals [.token (.hex ['0', 'x', '1'])] 0
      (.literal 0 ⟨.integer 1 none, 0⟩) 1 := ⟨7, rfl⟩
  exact not_accepts_value rfl rfl (h noExternals _ 0 1 _ .return haccepts)

end Roto.Parser.Parse
