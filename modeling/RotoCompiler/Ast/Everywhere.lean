import RotoCompiler.Ast.Fold

/-!
# Checks of every node of a syntax tree

A check of expressions and one of blocks, made at each node of a tree.
-/

namespace Roto.Ast

section
variable (p : Expr → Bool) (q : Block → Bool)

/-- The arms of a match, without the results on them. -/
def armsOf {β γ : Type} (arms : List (Pattern × Option (Expr × β) × Block × γ)) : List MatchArm :=
  arms.map fun arm => .mk arm.1 (arm.2.1.map Prod.fst) arm.2.2.1

def partOf {β : Type} (part : MetaId × (String ⊕ Expr × β)) : FStringPart :=
  match part.2 with
  | .inl s => .string part.1 s
  | .inr e => .expr part.1 e.1

def stmtOf {β : Type} (s : Option (Meta Identifier) × Expr × β) : Stmt :=
  match s.1 with
  | some x => .let x s.2.1
  | none => .expr s.2.1

def partHolds (part : MetaId × (String ⊕ Expr × Bool)) : Bool :=
  match part.2 with
  | .inl _ => true
  | .inr e => e.2

def everywhere : Alg Bool Bool where
  returnE id kind e := p (.return id kind (e.map Prod.fst)) && e.all Prod.snd
  literal id l := p (.literal id l)
  block id b := p (.block id b.1) && b.2
  matchE id e arms := p (.match id e.1 (armsOf arms)) && e.2 &&
    arms.all fun arm => arm.2.1.all Prod.snd && arm.2.2.2
  functionCall id f receiver args := p (.functionCall id f (args.map Prod.fst)) &&
    receiver.all Prod.snd && args.all Prod.snd
  access id e field := p (.access id e.1 field) && e.2
  path id path := p (.path id path)
  record id fields := p (.record id (fields.map fun f => (f.1, f.2.1))) && fields.all (·.2.2)
  typedRecord id path fields :=
    p (.typedRecord id path (fields.map fun f => (f.1, f.2.1))) && fields.all (·.2.2)
  list id es := p (.list id (es.map Prod.fst)) && es.all Prod.snd
  not id e := p (.not id e.1) && e.2
  assign id path e := p (.assign id path e.1) && e.2
  compoundAssign id i j path op e := p (.compoundAssign id i j path op e.1) && e.2
  binOp id l op r := p (.binOp id l.1 op r.1) && l.2 && r.2
  negate id e := p (.negate id e.1) && e.2
  ifElse id c t e := p (.ifElse id c.1 t.1 (e.map Prod.fst)) && c.2 && t.2 && e.all Prod.snd
  whileE id c b := p (.while id c.1 b.1) && c.2 && b.2
  forE id name e b := p (.for id name e.1 b.1) && e.2 && b.2
  questionMark id e := p (.questionMark id e.1) && e.2
  fString id parts := p (.fString id (parts.map partOf)) && parts.all partHolds
  body id stmts last := q (.mk id (stmts.map stmtOf) (last.map Prod.fst)) &&
    stmts.all (·.2.2) && last.all Prod.snd

def Expr.everywhere (e : Expr) : Bool := e.fold (Ast.everywhere p q)

def Block.everywhere (b : Block) : Bool := b.fold (Ast.everywhere p q)

variable {p q} {id : MetaId} {e : Expr} {b : Block}

theorem option_map_fst_pair {α β : Type} (f : α → β) (a : Option α) :
    (a.map fun a => (a, f a)).map Prod.fst = a := by
  cases a <;> rfl

theorem armsOf_map {β γ : Type} (f : Expr → β) (g : Block → γ) (arms : List MatchArm) :
    armsOf (arms.map fun arm =>
      (arm.pattern, arm.guard.map fun g => (g, f g), arm.body, g arm.body)) = arms := by
  induction arms with
  | nil => rfl
  | cons arm arms ih =>
    obtain ⟨pattern, guard, body⟩ := arm
    simp only [armsOf, List.map_cons] at ih ⊢
    rw [ih]
    cases guard <;> rfl

theorem partOf_pair {β : Type} (f : Expr → β) (parts : List FStringPart) :
    (parts.map fun part => part.pair fun e => (e, f e)).map partOf = parts := by
  induction parts with
  | nil => rfl
  | cons part parts ih =>
    rw [List.map_cons, List.map_cons, ih]
    cases part <;> rfl

theorem stmtOf_map {β : Type} (f : Expr → β) (stmts : List Stmt) :
    (stmts.map fun s => (s.ident, s.value, f s.value)).map stmtOf = stmts := by
  induction stmts with
  | nil => rfl
  | cons s stmts ih =>
    rw [List.map_cons, List.map_cons, ih]
    cases s <;> rfl

theorem partHolds_pair (f : Expr → Bool) (part : FStringPart) :
    partHolds (part.pair fun e => (e, f e)) = true ↔ ∀ e ∈ part.value, f e = true := by
  cases part with
  | string id s => simp [partHolds, FStringPart.pair, FStringPart.value]
  | expr id e => simp [partHolds, FStringPart.pair, FStringPart.value]

theorem Expr.everywhere_return {kind : ReturnKind} {x : Option Expr} :
    (Expr.return id kind x).everywhere p q = true ↔
      p (.return id kind x) = true ∧ ∀ e ∈ x, e.everywhere p q = true := by
  cases x <;> simp [Expr.everywhere, Expr.fold, Ast.everywhere]

theorem Expr.everywhere_block : (Expr.block id b).everywhere p q = true ↔
    p (.block id b) = true ∧ b.everywhere p q = true := by
  simp [Expr.everywhere, Block.everywhere, Expr.fold, Ast.everywhere]

theorem Expr.everywhere_match {arms : List MatchArm} :
    (Expr.match id e arms).everywhere p q = true ↔
      p (.match id e arms) = true ∧ e.everywhere p q = true ∧
        (∀ arm ∈ arms, ∀ g ∈ arm.guard, g.everywhere p q = true) ∧
        ∀ arm ∈ arms, arm.body.everywhere p q = true := by
  rw [Expr.everywhere, Expr.fold, Expr.foldArms_eq]
  simp only [Ast.everywhere, armsOf_map, Bool.and_eq_true, List.all_eq_true, List.mem_map,
    forall_exists_index, and_imp, forall_apply_eq_imp_iff₂, Expr.everywhere, Block.everywhere]
  constructor
  · intro h
    refine ⟨h.1.1, h.1.2, ?_, fun arm harm => (h.2 arm harm).2⟩
    intro arm harm g hg
    have hguard := (h.2 arm harm).1
    rw [hg] at hguard
    exact hguard
  · intro h
    refine ⟨⟨h.1, h.2.1⟩, fun arm harm => ⟨?_, h.2.2.2 arm harm⟩⟩
    cases hg : arm.guard with
    | none => rfl
    | some g => exact h.2.2.1 arm harm g hg

theorem Expr.everywhere_functionCall {f : Expr} {args : List Expr} :
    (Expr.functionCall id f args).everywhere p q = true ↔
      p (.functionCall id f args) = true ∧ (∀ e ∈ f.receiver, e.everywhere p q = true) ∧
        ∀ e ∈ args, e.everywhere p q = true := by
  cases hf : f.receiver <;>
    simp [Expr.everywhere, Expr.fold, Ast.everywhere, hf, Function.comp_def, and_assoc]

theorem Expr.everywhere_access {field : Meta Identifier} :
    (Expr.access id e field).everywhere p q = true ↔
      p (.access id e field) = true ∧ e.everywhere p q = true := by
  simp [Expr.everywhere, Expr.fold, Ast.everywhere]

theorem Expr.everywhere_record {fields : List (Meta Identifier × Expr)} :
    (Expr.record id fields).everywhere p q = true ↔
      p (.record id fields) = true ∧ ∀ f ∈ fields, f.2.everywhere p q = true := by
  simp [Expr.everywhere, Expr.fold, Ast.everywhere, Function.comp_def]

theorem Expr.everywhere_typedRecord {path : Path} {fields : List (Meta Identifier × Expr)} :
    (Expr.typedRecord id path fields).everywhere p q = true ↔
      p (.typedRecord id path fields) = true ∧ ∀ f ∈ fields, f.2.everywhere p q = true := by
  simp [Expr.everywhere, Expr.fold, Ast.everywhere, Function.comp_def]

theorem Expr.everywhere_list {es : List Expr} :
    (Expr.list id es).everywhere p q = true ↔
      p (.list id es) = true ∧ ∀ e ∈ es, e.everywhere p q = true := by
  simp [Expr.everywhere, Expr.fold, Ast.everywhere, Function.comp_def]

theorem Expr.everywhere_not : (Expr.not id e).everywhere p q = true ↔
    p (.not id e) = true ∧ e.everywhere p q = true := by
  simp [Expr.everywhere, Expr.fold, Ast.everywhere]

theorem Expr.everywhere_assign {path : Path} :
    (Expr.assign id path e).everywhere p q = true ↔
      p (.assign id path e) = true ∧ e.everywhere p q = true := by
  simp [Expr.everywhere, Expr.fold, Ast.everywhere]

theorem Expr.everywhere_compoundAssign {i j : MetaId} {path : Path} {op : CompoundAssignOp} :
    (Expr.compoundAssign id i j path op e).everywhere p q = true ↔
      p (.compoundAssign id i j path op e) = true ∧ e.everywhere p q = true := by
  simp [Expr.everywhere, Expr.fold, Ast.everywhere]

theorem Expr.everywhere_binOp {l r : Expr} {op : BinOp} :
    (Expr.binOp id l op r).everywhere p q = true ↔
      p (.binOp id l op r) = true ∧ l.everywhere p q = true ∧ r.everywhere p q = true := by
  simp [Expr.everywhere, Expr.fold, Ast.everywhere, and_assoc]

theorem Expr.everywhere_negate : (Expr.negate id e).everywhere p q = true ↔
    p (.negate id e) = true ∧ e.everywhere p q = true := by
  simp [Expr.everywhere, Expr.fold, Ast.everywhere]

theorem Expr.everywhere_ifElse {c : Expr} {t : Block} {x : Option Block} :
    (Expr.ifElse id c t x).everywhere p q = true ↔
      p (.ifElse id c t x) = true ∧ c.everywhere p q = true ∧ t.everywhere p q = true ∧
        ∀ b ∈ x, b.everywhere p q = true := by
  cases x <;> simp [Expr.everywhere, Block.everywhere, Expr.fold, Ast.everywhere, and_assoc]

theorem Expr.everywhere_while {c : Expr} :
    (Expr.while id c b).everywhere p q = true ↔
      p (.while id c b) = true ∧ c.everywhere p q = true ∧ b.everywhere p q = true := by
  simp [Expr.everywhere, Block.everywhere, Expr.fold, Ast.everywhere, and_assoc]

theorem Expr.everywhere_for {name : Meta Identifier} :
    (Expr.for id name e b).everywhere p q = true ↔
      p (.for id name e b) = true ∧ e.everywhere p q = true ∧ b.everywhere p q = true := by
  simp [Expr.everywhere, Block.everywhere, Expr.fold, Ast.everywhere, and_assoc]

theorem Expr.everywhere_questionMark : (Expr.questionMark id e).everywhere p q = true ↔
    p (.questionMark id e) = true ∧ e.everywhere p q = true := by
  simp [Expr.everywhere, Expr.fold, Ast.everywhere]

theorem Expr.everywhere_fString {parts : List FStringPart} :
    (Expr.fString id parts).everywhere p q = true ↔
      p (.fString id parts) = true ∧
        ∀ part ∈ parts, ∀ e ∈ part.value, e.everywhere p q = true := by
  rw [Expr.everywhere, Expr.fold, Expr.foldParts_eq]
  simp only [Ast.everywhere, partOf_pair, Bool.and_eq_true, List.all_eq_true, List.mem_map,
    forall_exists_index, and_imp, forall_apply_eq_imp_iff₂, partHolds_pair, Expr.everywhere]

theorem Block.everywhere_mk {stmts : List Stmt} {last : Option Expr} :
    (Block.mk id stmts last).everywhere p q = true ↔
      q (.mk id stmts last) = true ∧ (∀ s ∈ stmts, s.value.everywhere p q = true) ∧
        ∀ e ∈ last, e.everywhere p q = true := by
  rw [Block.everywhere, Block.fold, Expr.foldStmts_eq, Expr.foldOption_eq]
  simp only [Ast.everywhere, stmtOf_map, option_map_fst_pair, Bool.and_eq_true, List.all_eq_true,
    List.mem_map, forall_exists_index, and_imp, forall_apply_eq_imp_iff₂, Expr.everywhere, and_assoc]
  cases last <;> simp

end

end Roto.Ast
