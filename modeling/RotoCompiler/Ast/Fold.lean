import RotoCompiler.Ast

/-!
# Recursion and induction over syntax trees

Every pass of the compiler walks the whole tree. `Expr.fold` is that walk: a pass is an
`Alg`, one field for each constructor, which is given each part of the node together
with the pass's result on it. `Ast.ind` is the induction that goes with it.
-/

namespace Roto.Ast

/-- What a pass does at each kind of node, from the parts and the results on them. -/
structure Alg (β γ : Type) where
  returnE : MetaId → ReturnKind → Option (Expr × β) → β
  literal : MetaId → Meta Literal → β
  block : MetaId → Block × γ → β
  matchE : MetaId → Expr × β → List (Pattern × Option (Expr × β) × Block × γ) → β
  /-- the third argument is the receiver `e` of a call `e.name(..)` -/
  functionCall : MetaId → Expr → Option (Expr × β) → List (Expr × β) → β
  access : MetaId → Expr × β → Meta Identifier → β
  path : MetaId → Path → β
  record : MetaId → List (Meta Identifier × Expr × β) → β
  typedRecord : MetaId → Path → List (Meta Identifier × Expr × β) → β
  list : MetaId → List (Expr × β) → β
  not : MetaId → Expr × β → β
  assign : MetaId → Path → Expr × β → β
  compoundAssign : (id binopId pathExprId : MetaId) → Path → CompoundAssignOp →
    Expr × β → β
  binOp : MetaId → Expr × β → BinOp → Expr × β → β
  negate : MetaId → Expr × β → β
  ifElse : MetaId → Expr × β → Block × γ → Option (Block × γ) → β
  whileE : MetaId → Expr × β → Block × γ → β
  forE : MetaId → Meta Identifier → Expr × β → Block × γ → β
  questionMark : MetaId → Expr × β → β
  fString : MetaId → List (MetaId × (String ⊕ Expr × β)) → β
  /-- a block; its statements are `let` with a name, or without one an expression -/
  body : MetaId → List (Option (Meta Identifier) × Expr × β) → Option (Expr × β) → γ

section
variable {β γ : Type} (A : Alg β γ)

mutual
def Expr.fold : Expr → β
  | .return id kind e => A.returnE id kind (Expr.foldOption e)
  | .literal id l => A.literal id l
  | .block id b => A.block id (b, Block.fold b)
  | .match id e arms => A.matchE id (e, Expr.fold e) (Expr.foldArms arms)
  | .functionCall id f args => A.functionCall id f (Expr.foldReceiver f) (Expr.foldList args)
  | .access id e field => A.access id (e, Expr.fold e) field
  | .path id p => A.path id p
  | .record id fields => A.record id (Expr.foldFields fields)
  | .typedRecord id p fields => A.typedRecord id p (Expr.foldFields fields)
  | .list id es => A.list id (Expr.foldList es)
  | .not id e => A.not id (e, Expr.fold e)
  | .assign id p e => A.assign id p (e, Expr.fold e)
  | .compoundAssign id i j p op e => A.compoundAssign id i j p op (e, Expr.fold e)
  | .binOp id l op r => A.binOp id (l, Expr.fold l) op (r, Expr.fold r)
  | .negate id e => A.negate id (e, Expr.fold e)
  | .ifElse id c t e => A.ifElse id (c, Expr.fold c) (t, Block.fold t) (Block.foldOption e)
  | .while id c b => A.whileE id (c, Expr.fold c) (b, Block.fold b)
  | .for id name e b => A.forE id name (e, Expr.fold e) (b, Block.fold b)
  | .questionMark id e => A.questionMark id (e, Expr.fold e)
  | .fString id parts => A.fString id (Expr.foldParts parts)

def Expr.foldReceiver : Expr → Option (Expr × β)
  | .access _ e _ => some (e, Expr.fold e)
  | _ => none

def Expr.foldOption : Option Expr → Option (Expr × β)
  | none => none
  | some e => some (e, Expr.fold e)

def Expr.foldList : List Expr → List (Expr × β)
  | [] => []
  | e :: es => (e, Expr.fold e) :: Expr.foldList es

def Expr.foldFields : List (Meta Identifier × Expr) → List (Meta Identifier × Expr × β)
  | [] => []
  | (s, e) :: fs => (s, e, Expr.fold e) :: Expr.foldFields fs

def Expr.foldArms : List MatchArm → List (Pattern × Option (Expr × β) × Block × γ)
  | [] => []
  | .mk p g b :: arms => (p, Expr.foldOption g, b, Block.fold b) :: Expr.foldArms arms

def Expr.foldParts : List FStringPart → List (MetaId × (String ⊕ Expr × β))
  | [] => []
  | .string id s :: parts => (id, .inl s) :: Expr.foldParts parts
  | .expr id e :: parts => (id, .inr (e, Expr.fold e)) :: Expr.foldParts parts

def Expr.foldStmts : List Stmt → List (Option (Meta Identifier) × Expr × β)
  | [] => []
  | .let x e :: ss => (some x, e, Expr.fold e) :: Expr.foldStmts ss
  | .expr e :: ss => (none, e, Expr.fold e) :: Expr.foldStmts ss

def Block.fold : Block → γ
  | .mk id stmts last => A.body id (Expr.foldStmts stmts) (Expr.foldOption last)

def Block.foldOption : Option Block → Option (Block × γ)
  | none => none
  | some b => some (b, Block.fold b)
end

/-! ### The walk over the lists of a node -/

attribute [local simp] Expr.fold Block.fold

@[simp] theorem Expr.foldReceiver_eq (f : Expr) :
    Expr.foldReceiver A f = f.receiver.map fun e => (e, e.fold A) := by
  cases f <;> rfl

@[simp] theorem Expr.foldOption_eq (e : Option Expr) :
    Expr.foldOption A e = e.map fun e => (e, e.fold A) := by
  cases e <;> rfl

@[simp] theorem Block.foldOption_eq (b : Option Block) :
    Block.foldOption A b = b.map fun b => (b, b.fold A) := by
  cases b <;> rfl

@[simp] theorem Expr.foldList_eq (es : List Expr) :
    Expr.foldList A es = es.map fun e => (e, e.fold A) := by
  induction es with
  | nil => rfl
  | cons e es ih => simp [Expr.foldList, ih]

@[simp] theorem Expr.foldFields_eq (fs : List (Meta Identifier × Expr)) :
    Expr.foldFields A fs = fs.map fun f => (f.1, f.2, f.2.fold A) := by
  induction fs with
  | nil => rfl
  | cons f fs ih => simp [Expr.foldFields, ih]

@[simp] theorem Expr.foldArms_eq (arms : List MatchArm) :
    Expr.foldArms A arms = arms.map fun arm =>
      (arm.pattern, arm.guard.map fun g => (g, g.fold A), arm.body, arm.body.fold A) := by
  induction arms with
  | nil => rfl
  | cons arm arms ih =>
    obtain ⟨p, g, b⟩ := arm
    simp [Expr.foldArms, ih, MatchArm.pattern, MatchArm.guard, MatchArm.body]

@[simp] theorem Expr.foldParts_eq (parts : List FStringPart) :
    Expr.foldParts A parts = parts.map fun part => part.pair fun e => (e, e.fold A) := by
  induction parts with
  | nil => rfl
  | cons part parts ih => cases part <;> simp [Expr.foldParts, ih, FStringPart.pair]

@[simp] theorem Expr.foldStmts_eq (ss : List Stmt) :
    Expr.foldStmts A ss = ss.map fun s => (s.ident, s.value, s.value.fold A) := by
  induction ss with
  | nil => rfl
  | cons s ss ih => cases s <;> simp [Expr.foldStmts, ih, Stmt.ident, Stmt.value]

end

/-! ### Induction -/

/-- One case for each constructor; the hypotheses for lists speak of their members. -/
structure Step (P : Expr → Prop) (Q : Block → Prop) : Prop where
  returnE : ∀ id kind e, (∀ x ∈ e, P x) → P (.return id kind e)
  literal : ∀ id l, P (.literal id l)
  block : ∀ id b, Q b → P (.block id b)
  matchE : ∀ id e arms, P e → (∀ arm ∈ arms, ∀ g ∈ MatchArm.guard arm, P g) →
    (∀ arm ∈ arms, Q (MatchArm.body arm)) → P (.match id e arms)
  functionCall : ∀ id f args, (∀ e ∈ f.receiver, P e) → (∀ e ∈ args, P e) →
    P (.functionCall id f args)
  access : ∀ id e field, P e → P (.access id e field)
  path : ∀ id p, P (.path id p)
  record : ∀ id (fields : List (Meta Identifier × Expr)), (∀ f ∈ fields, P f.2) →
    P (.record id fields)
  typedRecord : ∀ id p (fields : List (Meta Identifier × Expr)), (∀ f ∈ fields, P f.2) →
    P (.typedRecord id p fields)
  list : ∀ id es, (∀ e ∈ es, P e) → P (.list id es)
  not : ∀ id e, P e → P (.not id e)
  assign : ∀ id p e, P e → P (.assign id p e)
  compoundAssign : ∀ id i j p op e, P e → P (.compoundAssign id i j p op e)
  binOp : ∀ id l op r, P l → P r → P (.binOp id l op r)
  negate : ∀ id e, P e → P (.negate id e)
  ifElse : ∀ id c t e, P c → Q t → (∀ b ∈ e, Q b) → P (.ifElse id c t e)
  whileE : ∀ id c b, P c → Q b → P (.while id c b)
  forE : ∀ id name e b, P e → Q b → P (.for id name e b)
  questionMark : ∀ id e, P e → P (.questionMark id e)
  fString : ∀ id parts, (∀ part ∈ parts, ∀ e ∈ FStringPart.value part, P e) →
    P (.fString id parts)
  body : ∀ id stmts last, (∀ s ∈ stmts, P (Stmt.value s)) → (∀ e ∈ last, P e) →
    Q (.mk id stmts last)

section
variable {P : Expr → Prop} {Q : Block → Prop}

theorem forall_mem_some {α : Type} {p : α → Prop} {a : α} (h : p a) : ∀ x ∈ some a, p x := by
  intro x hx
  rw [← Option.some.inj hx]
  exact h

theorem forall_mem_none {α : Type} {p : α → Prop} : ∀ x ∈ (none : Option α), p x := by
  simp

mutual
theorem Expr.ind (h : Step P Q) : ∀ e, P e
  | .return id kind e => h.returnE id kind e (Expr.ind_option h e)
  | .literal id l => h.literal id l
  | .block id b => h.block id b (Block.ind h b)
  | .match id e arms =>
    h.matchE id e arms (Expr.ind h e) (Expr.ind_guards h arms) (Block.ind_arms h arms)
  | .functionCall id f args =>
    h.functionCall id f args (Expr.ind_receiver h f) (Expr.ind_list h args)
  | .access id e field => h.access id e field (Expr.ind h e)
  | .path id p => h.path id p
  | .record id fields => h.record id fields (Expr.ind_fields h fields)
  | .typedRecord id p fields => h.typedRecord id p fields (Expr.ind_fields h fields)
  | .list id es => h.list id es (Expr.ind_list h es)
  | .not id e => h.not id e (Expr.ind h e)
  | .assign id p e => h.assign id p e (Expr.ind h e)
  | .compoundAssign id i j p op e => h.compoundAssign id i j p op e (Expr.ind h e)
  | .binOp id l op r => h.binOp id l op r (Expr.ind h l) (Expr.ind h r)
  | .negate id e => h.negate id e (Expr.ind h e)
  | .ifElse id c t e => h.ifElse id c t e (Expr.ind h c) (Block.ind h t) (Block.ind_option h e)
  | .while id c b => h.whileE id c b (Expr.ind h c) (Block.ind h b)
  | .for id name e b => h.forE id name e b (Expr.ind h e) (Block.ind h b)
  | .questionMark id e => h.questionMark id e (Expr.ind h e)
  | .fString id parts => h.fString id parts (Expr.ind_parts h parts)

theorem Expr.ind_receiver (h : Step P Q) : ∀ f : Expr, ∀ e ∈ f.receiver, P e
  | .access _ e _ => forall_mem_some (Expr.ind h e)
  | .return .. => forall_mem_none
  | .literal .. => forall_mem_none
  | .block .. => forall_mem_none
  | .match .. => forall_mem_none
  | .functionCall .. => forall_mem_none
  | .path .. => forall_mem_none
  | .record .. => forall_mem_none
  | .typedRecord .. => forall_mem_none
  | .list .. => forall_mem_none
  | .not .. => forall_mem_none
  | .assign .. => forall_mem_none
  | .compoundAssign .. => forall_mem_none
  | .binOp .. => forall_mem_none
  | .negate .. => forall_mem_none
  | .ifElse .. => forall_mem_none
  | .while .. => forall_mem_none
  | .for .. => forall_mem_none
  | .questionMark .. => forall_mem_none
  | .fString .. => forall_mem_none

theorem Expr.ind_option (h : Step P Q) : ∀ e : Option Expr, ∀ x ∈ e, P x
  | none => forall_mem_none
  | some e => forall_mem_some (Expr.ind h e)

theorem Expr.ind_list (h : Step P Q) : ∀ es : List Expr, ∀ e ∈ es, P e
  | [] => List.forall_mem_nil _
  | e :: es => List.forall_mem_cons.mpr ⟨Expr.ind h e, Expr.ind_list h es⟩

theorem Expr.ind_fields (h : Step P Q) : ∀ fs : List (Meta Identifier × Expr), ∀ f ∈ fs, P f.2
  | [] => List.forall_mem_nil _
  | (_, e) :: fs => List.forall_mem_cons.mpr ⟨Expr.ind h e, Expr.ind_fields h fs⟩

theorem Expr.ind_guards (h : Step P Q) :
    ∀ arms : List MatchArm, ∀ arm ∈ arms, ∀ g ∈ arm.guard, P g
  | [] => List.forall_mem_nil _
  | .mk _ g _ :: arms =>
    List.forall_mem_cons.mpr ⟨Expr.ind_option h g, Expr.ind_guards h arms⟩

theorem Expr.ind_parts (h : Step P Q) :
    ∀ parts : List FStringPart, ∀ part ∈ parts, ∀ e ∈ part.value, P e
  | [] => List.forall_mem_nil _
  | .string _ _ :: parts =>
    List.forall_mem_cons.mpr ⟨forall_mem_none, Expr.ind_parts h parts⟩
  | .expr _ e :: parts =>
    List.forall_mem_cons.mpr ⟨forall_mem_some (Expr.ind h e), Expr.ind_parts h parts⟩

theorem Expr.ind_stmts (h : Step P Q) : ∀ ss : List Stmt, ∀ s ∈ ss, P s.value
  | [] => List.forall_mem_nil _
  | .let _ e :: ss => List.forall_mem_cons.mpr ⟨Expr.ind h e, Expr.ind_stmts h ss⟩
  | .expr e :: ss => List.forall_mem_cons.mpr ⟨Expr.ind h e, Expr.ind_stmts h ss⟩

theorem Block.ind (h : Step P Q) : ∀ b, Q b
  | .mk id stmts last => h.body id stmts last (Expr.ind_stmts h stmts) (Expr.ind_option h last)

theorem Block.ind_arms (h : Step P Q) : ∀ arms : List MatchArm, ∀ arm ∈ arms, Q arm.body
  | [] => List.forall_mem_nil _
  | .mk _ _ b :: arms => List.forall_mem_cons.mpr ⟨Block.ind h b, Block.ind_arms h arms⟩

theorem Block.ind_option (h : Step P Q) : ∀ b : Option Block, ∀ x ∈ b, Q x
  | none => forall_mem_none
  | some b => forall_mem_some (Block.ind h b)
end

end

end Roto.Ast
