import RotoCompiler.Parser.Operators

/-!
# Operators are parsed exactly

The loop takes the operators that belong to its operand, and it fails exactly where one of
them clashes with the operator before it.
-/

namespace Roto.Parser
open Ast (BinOp)
open OperatorTree

variable {A : Type} {prev : Option BinOp} {lhs : Expr A} {toks : List (Tok A)}

/-- Operators with the operands after them. -/
abbrev Operations (A : Type) := List (BinOp × A)

def tokens (ps : Operations A) : List (Tok A) := ps.flatMap fun p => [.op p.1, .operand p.2]

def ops (ps : Operations A) : List BinOp := ps.map (·.1)

/-- What comes next is no operator, so an expression ends there. -/
def Stops (toks : List (Tok A)) : Prop := ∀ op rest, toks ≠ .op op :: rest

theorem tokens_cons (op : BinOp) (a : A) (ps : Operations A) :
    tokens ((op, a) :: ps) = .op op :: .operand a :: tokens ps := rfl

/-! ### One round of the loop -/

theorem loop_stops (h : Stops toks) : binopLoop prev lhs toks = .ok ⟨(lhs, toks), le_rfl⟩ := by
  cases toks with
  | nil => rw [binopLoop]
  | cons t rest =>
    cases t with
    | op op => exact absurd rfl (h op rest)
    | operand a => rw [binopLoop]
    | other => rw [binopLoop]

theorem loop_left {op : BinOp} (h : onOperator prev op = .left) :
    (binopLoop prev lhs (.op op :: toks)).map Subtype.val = .ok (lhs, .op op :: toks) := by
  rw [binopLoop.eq_def]
  simp only [h]
  rfl

theorem loop_not {op : BinOp} (h : onOperator prev op = .not) :
    ∃ e, (binopLoop prev lhs (.op op :: toks)).map Subtype.val = .error e := by
  rw [binopLoop.eq_def]
  simp only [h]
  exact ⟨_, rfl⟩

theorem loop_right {op : BinOp} (h : onOperator prev op = .right) (a : A) :
    (binopLoop prev lhs (.op op :: .operand a :: toks)).map Subtype.val =
      ((binopLoop (some op) (.leaf a) toks).map Subtype.val).bind fun r =>
        (binopLoop prev (.node lhs op r.1) r.2).map Subtype.val := by
  rw [binopLoop.eq_def]
  simp only [h]
  rw [binopExpr]
  cases binopLoop (some op) (.leaf a) toks with
  | error e => rfl
  | ok r =>
    obtain ⟨⟨rhs, rest⟩, hr⟩ := r
    simp only [Except.map, Except.bind]
    cases binopLoop prev (.node lhs op rhs) rest with
    | error e => rfl
    | ok r => rfl

theorem onOperator_cases (prev : Option BinOp) (op : BinOp) :
    (onOperator prev op = .right ∧ belongs prev op = true) ∨
    (onOperator prev op = .not ∧ belongs prev op = false ∧ ∃ p ∈ prev, Clash p op) ∨
    (onOperator prev op = .left ∧ belongs prev op = false ∧ ∀ p ∈ prev, ¬ Clash p op) := by
  cases prev with
  | none => exact .inl ⟨rfl, rfl⟩
  | some p =>
    rcases relativeAssociativity_cases p op with ⟨h, hlt⟩ | ⟨h, hclash⟩ | ⟨h, hle, hclash⟩
    · exact .inl ⟨h, by simpa [belongs] using hlt⟩
    · have heq := hclash.rank_eq
      exact .inr (.inl ⟨h, by simp [belongs, heq], p, rfl, hclash⟩)
    · refine .inr (.inr ⟨h, by simpa [belongs] using hle, fun q hq => ?_⟩)
      obtain rfl := Option.some.inj hq
      exact hclash

/-! ### The whole loop -/

/-- The operations that belong to the operand after `prev`, and the ones after these. -/
def own (prev : Option BinOp) (ps : Operations A) : Operations A :=
  ps.takeWhile fun p => belongs prev p.1

def others (prev : Option BinOp) (ps : Operations A) : Operations A :=
  ps.dropWhile fun p => belongs prev p.1

/-- There is no clash among the own operations, and none of `prev` with what comes next. -/
def Accepts (prev : Option BinOp) (ps : Operations A) : Prop :=
  Clear rank Clash (ops (own prev ps)) ∧ ∀ p ∈ prev, ClearOf rank Clash p (ops (others prev ps))

theorem others_head {ps : Operations A} {p : BinOp} :
    ∀ q ∈ (ops (others (some p) ps)).head?, rank q ≤ rank p := by
  induction ps with
  | nil => exact fun q hq => nomatch hq
  | cons x ps ih =>
    rw [others, List.dropWhile_cons]
    split_ifs with hx
    · exact ih
    · intro q hq
      obtain rfl := Option.some.inj hq
      simpa [belongs] using hx

theorem own_tighter {ps : Operations A} {p : BinOp} :
    ∀ o ∈ ops (own (some p) ps), rank p < rank o := by
  intro o ho
  obtain ⟨x, hx, rfl⟩ := List.mem_map.mp ho
  simpa [belongs] using List.mem_takeWhile_imp hx

/-- What belongs to an operator that belongs to `prev` belongs to `prev`. -/
theorem own_cons {op : BinOp} {a : A} {ps : Operations A} (h : belongs prev op = true) :
    own prev ((op, a) :: ps) = (op, a) :: (own (some op) ps ++ own prev (others (some op) ps)) ∧
      others prev ((op, a) :: ps) = others prev (others (some op) ps) := by
  have hall : ∀ x ∈ own (some op) ps, belongs prev x.1 = true := by
    intro x hx
    have hlt : rank op < rank x.1 := by simpa [belongs] using List.mem_takeWhile_imp hx
    cases prev with
    | none => rfl
    | some p =>
      simp only [belongs, Option.all_some, decide_eq_true_eq] at h ⊢
      omega
  have hsplit : own (some op) ps ++ others (some op) ps = ps := List.takeWhile_append_dropWhile
  constructor
  · rw [own, List.takeWhile_cons, if_pos h]
    conv_lhs => rw [← hsplit]
    rw [List.takeWhile_append_of_pos hall]
    rfl
  · rw [others, List.dropWhile_cons, if_pos h]
    conv_lhs => rw [← hsplit]
    rw [List.dropWhile_append_of_pos hall]
    rfl

/-- Acceptance goes through the operand of the first operator and then on. -/
theorem accepts_cons {op : BinOp} {a : A} {ps : Operations A} (h : belongs prev op = true) :
    Accepts prev ((op, a) :: ps) ↔
      Accepts (some op) ps ∧ Accepts prev (others (some op) ps) := by
  obtain ⟨hown, hothers⟩ := @own_cons A prev op a ps h
  have htight : ∀ o ∈ ops (own (some op) ps), rank op < rank o := own_tighter
  have hhead : ∀ q ∈ (ops (others (some op) ps)).head?, rank q ≤ rank op := others_head
  have hhead' : ∀ q ∈ (ops (own prev (others (some op) ps))).head?, rank q ≤ rank op := by
    intro q hq
    refine hhead q ?_
    cases hps : others (some op) ps with
    | nil =>
      rw [hps] at hq
      cases hq
    | cons x xs =>
      rw [hps, own, List.takeWhile_cons] at hq
      split_ifs at hq
      · exact hq
      · cases hq
  have hpass : ClearOf rank Clash op (ops (own prev (others (some op) ps))) ↔
      ClearOf rank Clash op (ops (others (some op) ps)) := by
    cases hps : others (some op) ps with
    | nil => rfl
    | cons x xs =>
      rw [hps] at hhead
      have hle : rank x.1 ≤ rank op := hhead x.1 rfl
      rw [own, List.takeWhile_cons]
      split_ifs with hx
      · rw [ops, ops, List.map_cons, List.map_cons, clearOf_looser hle, clearOf_looser hle]
      · rw [ops, ops, List.map_cons, List.map_nil, clearOf_looser hle]
        refine ⟨fun _ hclash => hx ?_, fun _ => clearOf_nil⟩
        have heq := hclash.rank_eq
        cases prev with
        | none => rfl
        | some p =>
          simp only [belongs, Option.all_some, decide_eq_true_eq] at h ⊢
          omega
  unfold Accepts
  rw [hown, hothers, ops, List.map_cons, List.map_append, ← ops, ← ops, clear_cons,
    clearOf_append Clash.rank_eq htight, clear_append Clash.rank_eq htight hhead', hpass]
  simp only [Option.mem_some_iff, forall_eq']
  tauto

theorem own_stopped {op : BinOp} {a : A} {ps : Operations A} (h : belongs prev op = false) :
    own prev ((op, a) :: ps) = [] ∧ others prev ((op, a) :: ps) = (op, a) :: ps := by
  constructor
  · rw [own, List.takeWhile_cons, if_neg (by simp [h])]
  · rw [others, List.dropWhile_cons, if_neg (by simp [h])]

/-- Where the loop leaves, it is the operator after that decides. -/
theorem accepts_stopped {op : BinOp} {a : A} {ps : Operations A} (h : belongs prev op = false) :
    Accepts prev ((op, a) :: ps) ↔ ∀ p ∈ prev, ¬ Clash p op := by
  obtain ⟨hown, hothers⟩ := @own_stopped A prev op a ps h
  rw [Accepts, hown, hothers, ops, List.map_nil, ops, List.map_cons]
  have hlooser : ∀ p ∈ prev, rank op ≤ rank p := by
    intro p hp
    obtain rfl := Option.mem_def.mp hp
    simpa [belongs] using h
  refine ⟨fun h p hp => (clearOf_looser (hlooser p hp)).mp (h.2 p hp), fun h => ?_⟩
  exact ⟨clear_nil, fun p hp => (clearOf_looser (hlooser p hp)).mpr (h p hp)⟩

/-- What the loop does with its own operations: it takes them into one tree. -/
def Takes (prev : Option BinOp) (lhs : Expr A) (ps : Operations A) (stop : List (Tok A)) : Prop :=
  ∃ t, (binopLoop prev lhs (tokens ps ++ stop)).map Subtype.val =
      .ok (t, tokens (others prev ps) ++ stop) ∧
    t.reading = (lhs.reading.1, lhs.reading.2 ++ own prev ps) ∧
    (lhs.Proper rank → (∀ p ∈ lhs.root, ∀ q ∈ (ops ps).head?, rank q ≤ rank p) → t.Proper rank)

def Fails (prev : Option BinOp) (lhs : Expr A) (ps : Operations A) (stop : List (Tok A)) : Prop :=
  ∃ e, (binopLoop prev lhs (tokens ps ++ stop)).map Subtype.val = .error e

/-- The loop takes its own operations if they are accepted, and it fails otherwise. The loop
for the operand of an operator leaves the rest to this one. -/
theorem loop_spec (n : ℕ) {ps : Operations A} {stop : List (Tok A)} (hn : ps.length ≤ n)
    (hstop : Stops stop) (prev : Option BinOp) (lhs : Expr A) :
    (Accepts prev ps → Takes prev lhs ps stop) ∧ (¬ Accepts prev ps → Fails prev lhs ps stop) := by
  induction n generalizing ps prev lhs with
  | zero =>
    obtain rfl := List.eq_nil_of_length_eq_zero (Nat.le_zero.mp hn)
    refine ⟨fun _ => ⟨lhs, ?_, (Prod.ext rfl (List.append_nil _).symm), fun h _ => h⟩, fun h => ?_⟩
    · rw [tokens, List.flatMap_nil, List.nil_append, loop_stops hstop]
      rfl
    · exact absurd ⟨clear_nil, fun p _ => clearOf_nil⟩ h
  | succ n ih =>
    cases ps with
    | nil => exact ih (show ([] : Operations A).length ≤ n from Nat.zero_le n) prev lhs
    | cons x ps =>
      obtain ⟨op, a⟩ := x
      have hps : ps.length ≤ n := Nat.le_of_succ_le_succ hn
      unfold Takes Fails
      rw [tokens_cons, List.cons_append, List.cons_append]
      rcases onOperator_cases prev op with ⟨hon, hb⟩ | ⟨hon, hb, p, hp, hclash⟩ | ⟨hon, hb, hclash⟩
      · rw [accepts_cons hb, loop_right hon]
        obtain ⟨hown, hothers⟩ := @own_cons A prev op a ps hb
        have hrest : (others (some op) ps).length ≤ n :=
          (List.dropWhile_sublist _).length_le.trans hps
        obtain ⟨htakes, hfails⟩ := ih hps (some op) (.leaf a)
        constructor
        · rintro ⟨hfirst, hsecond⟩
          obtain ⟨rhs, hrhs, hreading, hproper⟩ := htakes hfirst
          obtain ⟨t, ht, hreading', hproper'⟩ :=
            (ih hrest prev (.node lhs op rhs)).1 hsecond
          refine ⟨t, ?_, ?_, fun hl hroot => hproper' ⟨hl, ?_, ?_, ?_⟩ ?_⟩
          · rw [hrhs, hothers]
            exact ht
          · rw [hreading', hown]
            simp [reading, hreading]
          · exact hproper trivial fun p hp => by cases hp
          · exact fun p hp => hroot p hp op rfl
          · intro p hp
            have hmem := root_mem hp
            rw [hreading, reading, List.nil_append] at hmem
            exact own_tighter p hmem
          · intro p hp
            obtain rfl := Option.some.inj hp
            exact others_head
        · intro hnot
          by_cases hfirst : Accepts (some op) ps
          · obtain ⟨rhs, hrhs, -⟩ := htakes hfirst
            obtain ⟨e, he⟩ := (ih hrest prev (.node lhs op rhs)).2 fun hsecond =>
              hnot ⟨hfirst, hsecond⟩
            exact ⟨e, by rw [hrhs]; exact he⟩
          · obtain ⟨e, he⟩ := hfails hfirst
            exact ⟨e, by rw [he]; rfl⟩
      · rw [accepts_stopped hb]
        exact ⟨fun h => absurd hclash (h p hp), fun _ => loop_not hon⟩
      · rw [accepts_stopped hb]
        obtain ⟨hown, hothers⟩ := @own_stopped A prev op a ps hb
        refine ⟨fun _ => ⟨lhs, ?_, ?_, fun h _ => h⟩, fun h => absurd hclash h⟩
        · rw [loop_left hon, hothers]
          rfl
        · rw [hown, List.append_nil]

/-! ### The whole expression -/

theorem belongs_none (ps : Operations A) : own none ps = ps ∧ others none ps = [] := by
  induction ps with
  | nil => exact ⟨rfl, rfl⟩
  | cons p ps ih =>
    have hp : belongs none p.1 = true := rfl
    refine ⟨?_, ?_⟩
    · rw [own, List.takeWhile_cons, if_pos hp, ← own, ih.1]
    · rw [others, List.dropWhile_cons, if_pos hp, ← others, ih.2]

theorem accepts_none {ps : Operations A} : Accepts none ps ↔ Clear rank Clash (ops ps) := by
  rw [Accepts, (belongs_none ps).1]
  exact ⟨fun h => h.1, fun h => ⟨h, fun p hp => nomatch hp⟩⟩

theorem binopExpr_operand {a : A} :
    (binopExpr prev (.operand a :: toks)).map Subtype.val =
      (binopLoop prev (.leaf a) toks).map Subtype.val := by
  rw [binopExpr]
  cases binopLoop prev (.leaf a) toks with
  | error e => rfl
  | ok r => rfl

/-- An expression without clashes is parsed to its end, and to the only tree for it; an
expression with a clash is not parsed. -/
theorem binopExpr_exact (a : A) (ps : Operations A) (stop : List (Tok A)) (hstop : Stops stop) :
    ((∃ r, (binopExpr none (.operand a :: (tokens ps ++ stop))).map Subtype.val = .ok r) ↔
      Clear rank Clash (ops ps)) ∧
    ∀ t rest, (binopExpr none (.operand a :: (tokens ps ++ stop))).map Subtype.val = .ok (t, rest) →
      rest = stop ∧ t.reading = (a, ps) ∧ t.Proper rank ∧
        ∀ t' : Expr A, t'.reading = (a, ps) → t'.Proper rank → t' = t := by
  rw [binopExpr_operand, ← accepts_none]
  obtain ⟨htakes, hfails⟩ := loop_spec ps.length le_rfl hstop none (.leaf a)
  have htaken : Accepts none ps → ∃ t, (binopLoop none (.leaf a) (tokens ps ++ stop)).map
      Subtype.val = .ok (t, stop) ∧ t.reading = (a, ps) ∧ t.Proper rank := by
    intro h
    obtain ⟨t, ht, hreading, hproper⟩ := htakes h
    rw [(belongs_none ps).2] at ht
    rw [(belongs_none ps).1] at hreading
    exact ⟨t, ht, hreading, hproper trivial fun p hp => nomatch hp⟩
  have haccepts : ∀ r, (binopLoop none (.leaf a) (tokens ps ++ stop)).map Subtype.val = .ok r →
      Accepts none ps := by
    intro r hr
    by_contra hnot
    obtain ⟨e, he⟩ := hfails hnot
    rw [he] at hr
    cases hr
  constructor
  · constructor
    · rintro ⟨r, hr⟩
      exact haccepts r hr
    · intro h
      obtain ⟨t, ht, -⟩ := htaken h
      exact ⟨_, ht⟩
  · intro t rest hr
    obtain ⟨t', ht, hreading, hproper⟩ := htaken (haccepts _ hr)
    rw [ht] at hr
    cases hr
    exact ⟨rfl, hreading, hproper, fun t' h hp => hp.unique hproper (h.trans hreading.symm)⟩

/-- `a - b * c` before a closing parenthesis. -/
theorem binopExpr_exact_sub_mul :
    ((∃ r, (binopExpr none (.operand 'a' :: (tokens [(.sub, 'b'), (.mul, 'c')] ++
      [.other]))).map Subtype.val = .ok r) ↔ Clear rank Clash [.sub, .mul]) :=
  (binopExpr_exact 'a' [(.sub, 'b'), (.mul, 'c')] [.other] fun _ _ h => nomatch h).1

end Roto.Parser
