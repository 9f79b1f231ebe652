import Mathlib.Data.List.TakeWhile
import Mathlib.Tactic.Tauto

/-!
# Trees of binary operators

Trees of operators with a rank, which is higher for operators that bind tighter. A tree reads
as a sequence of operands and operators, and a sequence is read by at most one tree in which
tighter operators are inside of looser ones and operators of one rank associate to the left.
-/

namespace Roto

inductive OperatorTree (O A : Type) where
  | leaf (a : A)
  | node (lhs : OperatorTree O A) (op : O) (rhs : OperatorTree O A)
  deriving Repr

namespace OperatorTree
variable {O A : Type}

/-- The first operand, and the operators with the operands after them. -/
def reading : OperatorTree O A → A × List (O × A)
  | leaf a => (a, [])
  | node l op r => (l.reading.1, l.reading.2 ++ (op, r.reading.1) :: r.reading.2)

def root : OperatorTree O A → Option O
  | leaf _ => none
  | node _ op _ => some op

variable (rank : O → ℕ)

/-- Tighter operators are inside of looser ones, and of operators of one rank the left one is
inside of the right one. -/
def Proper : OperatorTree O A → Prop
  | leaf _ => True
  | node l op r => l.Proper ∧ r.Proper ∧ (∀ p ∈ l.root, rank op ≤ rank p) ∧
    ∀ p ∈ r.root, rank op < rank p

/-- No two operators that clash have only tighter operators between them. -/
def Clear (clash : O → O → Prop) (ops : List O) : Prop :=
  ∀ a p b q c, ops = a ++ p :: (b ++ q :: c) → (∀ o ∈ b, rank p < rank o) → ¬ clash p q

/-- An operator does not clash with the first one after it that is not tighter. -/
def ClearOf (clash : O → O → Prop) (p : O) (ops : List O) : Prop :=
  ∀ b q c, ops = b ++ q :: c → (∀ o ∈ b, rank p < rank o) → ¬ clash p q

variable {rank} {clash : O → O → Prop} {t t' : OperatorTree O A}

/-! ### The tree of a sequence -/

theorem root_mem {p : O} (h : t.root = some p) : p ∈ t.reading.2.map (·.1) := by
  cases t with
  | leaf a => cases h
  | node l op r =>
    obtain rfl := Option.some.inj h
    exact List.mem_map_of_mem (List.mem_append_right _ (List.mem_cons_self ..))

/-- The root is the loosest operator. -/
theorem Proper.root_le (h : t.Proper rank) {p : O} (hp : t.root = some p) :
    ∀ x ∈ t.reading.2, rank p ≤ rank x.1 := by
  induction t generalizing p with
  | leaf a => cases hp
  | node l op r ihl ihr =>
    obtain rfl := Option.some.inj hp
    obtain ⟨hl, hr, hlroot, hrroot⟩ := h
    intro x hx
    rcases List.mem_append.mp hx with hx | hx
    · cases hlq : l.root with
      | none =>
        cases l with
        | leaf a => cases hx
        | node => cases hlq
      | some q => exact (hlroot q hlq).trans (ihl hl hlq x hx)
    · rcases List.mem_cons.mp hx with rfl | hx
      · exact le_rfl
      · cases hrq : r.root with
        | none =>
          cases r with
          | leaf a => cases hx
          | node => cases hrq
        | some q => exact (hrroot q hrq).le.trans (ihr hr hrq x hx)

theorem Proper.left_le {l r : OperatorTree O A} {op : O} (h : (node l op r).Proper rank) :
    ∀ x ∈ l.reading.2, rank op ≤ rank x.1 := by
  intro x hx
  exact h.root_le rfl x (List.mem_append_left _ hx)

theorem Proper.right_lt {l r : OperatorTree O A} {op : O} (h : (node l op r).Proper rank) :
    ∀ x ∈ r.reading.2, rank op < rank x.1 := by
  intro x hx
  cases hq : r.root with
  | none =>
    cases r with
    | leaf a => cases hx
    | node => cases hq
  | some q => exact (h.2.2.2 q hq).trans_le (h.2.1.root_le hq x hx)

/-- Two ways to cut a sequence at a loosest operator that is the last such are the same. -/
theorem cut_unique {as bs as' bs' : List (O × A)} {x x' : O × A}
    (h : as ++ x :: bs = as' ++ x' :: bs') (ha : ∀ y ∈ as', rank x'.1 ≤ rank y.1)
    (hb : ∀ y ∈ bs, rank x.1 < rank y.1) : as'.length ≤ as.length := by
  by_contra hlt
  obtain ⟨cs, rfl⟩ : ∃ cs, as' = as ++ x :: cs := by
    rcases List.append_eq_append_iff.mp h with ⟨cs, rfl, hcs⟩ | ⟨cs, rfl, hcs⟩
    · cases cs with
      | nil => simp at hlt
      | cons y cs =>
        obtain ⟨rfl, -⟩ := List.cons.inj hcs
        exact ⟨cs, rfl⟩
    · simp at hlt
  have hbs : bs = cs ++ x' :: bs' := by simpa using h
  have hle := ha x (by simp)
  have hlt' := hb x' (by simp [hbs])
  omega

theorem Proper.unique (ht : t.Proper rank) (ht' : t'.Proper rank)
    (h : t.reading = t'.reading) : t = t' := by
  induction t generalizing t' with
  | leaf a =>
    cases t' with
    | leaf a' =>
      rw [show a = a' from congrArg Prod.fst h]
    | node l op r =>
      have hnil := congrArg Prod.snd h
      simp [reading] at hnil
  | node l op r ihl ihr =>
    cases t' with
    | leaf a' =>
      have hnil := congrArg Prod.snd h
      simp [reading] at hnil
    | node l' op' r' =>
      obtain ⟨hfst, hsnd⟩ := Prod.mk.inj h
      have hle := cut_unique hsnd ht'.left_le ht.right_lt
      have hge := cut_unique hsnd.symm ht.left_le ht'.right_lt
      obtain ⟨hl, hr⟩ := List.append_inj hsnd (le_antisymm hge hle)
      obtain ⟨hop, hrsnd⟩ := List.cons.inj hr
      obtain ⟨rfl, hrfst⟩ := Prod.mk.inj hop
      rw [ihl ht.1 ht'.1 (Prod.ext hfst hl), ihr ht.2.1 ht'.2.1 (Prod.ext hrfst hrsnd)]

/-! ### Sequences without clashes -/

section
variable {p : O} {ops ops' : List O}

theorem clear_nil : Clear rank clash [] := by
  intro a p b q c h
  simp at h

theorem clear_cons : Clear rank clash (p :: ops) ↔ ClearOf rank clash p ops ∧ Clear rank clash ops := by
  constructor
  · intro h
    exact ⟨fun b q c heq => h [] p b q c (by rw [heq, List.nil_append]),
      fun a q b r c heq => h (p :: a) q b r c (by rw [heq, List.cons_append])⟩
  · rintro ⟨hp, hops⟩ a q b r c heq hb
    cases a with
    | nil =>
      obtain ⟨rfl, rfl⟩ := List.cons.inj heq
      exact hp b r c rfl hb
    | cons x a =>
      obtain ⟨rfl, rfl⟩ := List.cons.inj heq
      exact hops a q b r c rfl hb

theorem clearOf_nil : ClearOf rank clash p [] := by
  intro b q c h
  simp at h

/-- Tighter operators are passed over. -/
theorem clearOf_tighter {q : O} (hclash : ∀ p q, clash p q → rank p = rank q)
    (h : rank p < rank q) :
    ClearOf rank clash p (q :: ops) ↔ ClearOf rank clash p ops := by
  constructor
  · intro hp b r c heq hb
    refine hp (q :: b) r c (by rw [heq, List.cons_append]) fun o ho => ?_
    rcases List.mem_cons.mp ho with rfl | ho
    · exact h
    · exact hb o ho
  · intro hp b r c heq hb
    cases b with
    | nil =>
      obtain ⟨rfl, -⟩ := List.cons.inj heq
      intro hpq
      have := hclash p q hpq
      omega
    | cons x b =>
      obtain ⟨rfl, rfl⟩ := List.cons.inj heq
      exact hp b r c rfl fun o ho => hb o (List.mem_cons_of_mem _ ho)

theorem clearOf_looser {q : O} (h : rank q ≤ rank p) :
    ClearOf rank clash p (q :: ops) ↔ ¬ clash p q := by
  constructor
  · intro hp
    exact hp [] q ops rfl fun o ho => nomatch ho
  · intro hp b r c heq hb
    cases b with
    | nil =>
      obtain ⟨rfl, -⟩ := List.cons.inj heq
      exact hp
    | cons x b =>
      obtain ⟨rfl, -⟩ := List.cons.inj heq
      have := hb q (List.mem_cons_self ..)
      omega

theorem clearOf_append (hclash : ∀ p q, clash p q → rank p = rank q)
    (h : ∀ o ∈ ops, rank p < rank o) :
    ClearOf rank clash p (ops ++ ops') ↔ ClearOf rank clash p ops' := by
  induction ops with
  | nil => rfl
  | cons q ops ih =>
    obtain ⟨hq, hops⟩ := List.forall_mem_cons.mp h
    rw [List.cons_append, clearOf_tighter hclash hq, ih hops]

/-- A looser operator divides a sequence. -/
theorem clear_append (hclash : ∀ p q, clash p q → rank p = rank q) {r : ℕ}
    (h : ∀ o ∈ ops, r < rank o) (h' : ∀ q ∈ ops'.head?, rank q ≤ r) :
    Clear rank clash (ops ++ ops') ↔ Clear rank clash ops ∧ Clear rank clash ops' := by
  induction ops with
  | nil => simp [clear_nil]
  | cons p ops ih =>
    obtain ⟨hp, hops⟩ := List.forall_mem_cons.mp h
    have hpass : ClearOf rank clash p (ops ++ ops') ↔ ClearOf rank clash p ops := by
      clear ih h
      induction ops with
      | nil =>
        cases ops' with
        | nil => rfl
        | cons q ops' =>
          have hq := h' q rfl
          rw [List.nil_append, clearOf_looser (by omega)]
          refine ⟨fun _ => clearOf_nil, fun _ hpq => ?_⟩
          have := hclash p q hpq
          omega
      | cons q ops ih =>
        obtain ⟨-, hops⟩ := List.forall_mem_cons.mp hops
        rw [List.cons_append]
        by_cases hpq : rank p < rank q
        · rw [clearOf_tighter hclash hpq, clearOf_tighter hclash hpq, ih hops]
        · rw [clearOf_looser (by omega), clearOf_looser (by omega)]
    rw [List.cons_append, clear_cons, clear_cons, ih hops, hpass, and_assoc]

end

end OperatorTree

end Roto
