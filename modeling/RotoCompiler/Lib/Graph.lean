import Mathlib.Logic.Relation
import Mathlib.Order.WellFounded
import Mathlib.Data.Fintype.Card
import Mathlib.Data.Set.Finite.Basic
import Mathlib.Order.Preorder.Finite

/-!
# Acyclic relations and the replacement of one row

A directed graph is a relation. Replacing all edges that leave one vertex
keeps a graph free of cycles exactly when no new target leads back to that
vertex; shortening paths never makes a cycle. A graph without cycles whose
edges leave only finitely many vertices can be recursed over.
-/

namespace Roto.Graph
open Relation

variable {α : Type*}

/-- No vertex leads back to itself. -/
def Acyclic (r : α → α → Prop) : Prop := ∀ x, ¬ TransGen r x x

/-- The edges that leave `i` are replaced by edges to the vertices of `T`. -/
def replaceRow (r : α → α → Prop) (i : α) (T : Set α) : α → α → Prop :=
  fun x y => (x = i ∧ y ∈ T) ∨ (x ≠ i ∧ r x y)

theorem transGen_of_le {r s : α → α → Prop} (h : ∀ x y, s x y → TransGen r x y) {x y : α}
    (hs : TransGen s x y) : TransGen r x y := by
  induction hs with
  | single hxy => exact h _ _ hxy
  | tail _ hbc ih => exact ih.trans (h _ _ hbc)

theorem Acyclic.of_le {r s : α → α → Prop} (hr : Acyclic r)
    (h : ∀ x y, s x y → TransGen r x y) : Acyclic s :=
  fun x hx => hr x (transGen_of_le h hx)

/-- A walk of the new graph that starts where `i` cannot be reached never uses the
new row. -/
theorem walk_of_replaceRow {r : α → α → Prop} {i : α} {T : Set α} {y z : α}
    (hy : ¬ ReflTransGen r y i) (h : ReflTransGen (replaceRow r i T) y z) :
    ReflTransGen r y z := by
  induction h with
  | refl => exact .refl
  | tail _ hbc ih =>
    rcases hbc with ⟨rfl, -⟩ | ⟨-, hbc⟩
    · exact absurd ih hy
    · exact ih.tail hbc

/-- The part of a walk before its first visit to `i` is a walk of the new graph. -/
theorem replaceRow_of_walk {r : α → α → Prop} {i : α} (T : Set α) {y : α}
    (h : ReflTransGen r y i) : ReflTransGen (replaceRow r i T) y i := by
  induction h using ReflTransGen.head_induction_on with
  | refl => exact .refl
  | head hab _ ih =>
    rename_i a b _
    by_cases ha : a = i
    · rw [ha]
    · exact .head (Or.inr ⟨ha, hab⟩) ih

/-- A walk of the new graph is one of the old graph, or its last use of the new
row splits it. -/
theorem replaceRow_split {r : α → α → Prop} {i : α} {T : Set α} {x z : α}
    (h : TransGen (replaceRow r i T) x z) :
    TransGen r x z ∨ ∃ y ∈ T, ReflTransGen (replaceRow r i T) x i ∧
      ReflTransGen (replaceRow r i T) y z := by
  induction h with
  | single hxz =>
    rcases hxz with ⟨rfl, hz⟩ | ⟨-, hxz⟩
    · exact Or.inr ⟨_, hz, .refl, .refl⟩
    · exact Or.inl (.single hxz)
  | tail hxb hbc ih =>
    rcases hbc with ⟨rfl, hc⟩ | ⟨hne, hbc⟩
    · exact Or.inr ⟨_, hc, hxb.to_reflTransGen, .refl⟩
    · rcases ih with ih | ⟨y, hy, hxi, hyb⟩
      · exact Or.inl (ih.tail hbc)
      · exact Or.inr ⟨y, hy, hxi, hyb.tail (Or.inr ⟨hne, hbc⟩)⟩

theorem Acyclic.replaceRow {r : α → α → Prop} {i : α} {T : Set α} (hr : Acyclic r)
    (hT : ∀ y ∈ T, ¬ ReflTransGen r y i) : Acyclic (replaceRow r i T) := by
  intro x hx
  rcases replaceRow_split hx with hx | ⟨y, hy, hxi, hyx⟩
  · exact hr x hx
  · exact hT y hy (walk_of_replaceRow (hT y hy) (hyx.trans hxi))

/-- Replacing a row makes no cycle exactly when no new target leads back. -/
theorem acyclic_replaceRow_iff {r : α → α → Prop} {i : α} {T : Set α} (hr : Acyclic r) :
    Acyclic (replaceRow r i T) ↔ ∀ y ∈ T, ¬ ReflTransGen r y i := by
  refine ⟨fun h y hy hyi => ?_, hr.replaceRow⟩
  exact h i (TransGen.head' (Or.inl ⟨rfl, hy⟩) (replaceRow_of_walk T hyi))

/-- A walk whose edges are of two kinds keeps to the first kind or uses the second. -/
theorem transGen_split {r s t : α → α → Prop} (h : ∀ x y, r x y → s x y ∨ t x y) {x y : α}
    (hxy : TransGen r x y) :
    TransGen s x y ∨ ∃ u w, ReflTransGen r x u ∧ t u w ∧ ReflTransGen r w y := by
  induction hxy with
  | single hxy =>
    rcases h _ _ hxy with hs | ht
    · exact Or.inl (.single hs)
    · exact Or.inr ⟨_, _, .refl, ht, .refl⟩
  | tail hxb hbc ih =>
    rcases ih with ih | ⟨u, w, hu, huw, hw⟩
    · rcases h _ _ hbc with hs | ht
      · exact Or.inl (ih.tail hs)
      · exact Or.inr ⟨_, _, hxb.to_reflTransGen, ht, .refl⟩
    · exact Or.inr ⟨u, w, hu, huw, hw.tail hbc⟩

/-- A graph with edges of two kinds has no cycle when the first kind has none and no edge
of the second kind lies on one. -/
theorem acyclic_of_split {r s t : α → α → Prop} (h : ∀ x y, r x y → s x y ∨ t x y)
    (hs : Acyclic s) (ht : ∀ x y, t x y → ¬ ReflTransGen r y x) : Acyclic r := by
  intro x hx
  rcases transGen_split h hx with hx | ⟨u, w, hu, huw, hw⟩
  · exact hs x hx
  · exact ht u w huw (hw.trans hu)

theorem acyclic_of_wellFounded {r : α → α → Prop} (h : WellFounded fun y x => r x y) :
    Acyclic r := by
  intro x hx
  induction x using h.induction with
  | _ x ih =>
    obtain ⟨y, hxy, hyx⟩ := TransGen.head'_iff.mp hx
    exact ih y hxy (TransGen.tail' hyx hxy)

/-- Without cycles and with finitely many vertices that have edges, the graph can
be recursed over along its edges. -/
theorem Acyclic.wellFounded {r : α → α → Prop} (hr : Acyclic r) {S : Set α}
    (hS : S.Finite) (hsub : ∀ x y, r x y → x ∈ S) : WellFounded (fun y x => r x y) := by
  have : Finite S := hS
  let t : S → S → Prop := fun y x => TransGen r x.1 y.1
  have : IsTrans S t := ⟨fun a b c hab hbc => hbc.trans hab⟩
  have : Std.Irrefl t := ⟨fun a h => hr a.1 h⟩
  have hwf : WellFounded t := Finite.wellFounded_of_trans_of_irrefl t
  have hin : ∀ x : S, Acc (fun y x => r x y) x.1 := by
    intro x
    induction x using hwf.induction with
    | _ x ih =>
      refine Acc.intro _ fun y hxy => ?_
      by_cases hy : y ∈ S
      · exact ih ⟨y, hy⟩ (.single hxy)
      · exact Acc.intro _ fun z hyz => absurd (hsub y z hyz) hy
  refine ⟨fun x => ?_⟩
  by_cases hx : x ∈ S
  · exact hin ⟨x, hx⟩
  · exact Acc.intro _ fun y hxy => absurd (hsub x y hxy) hx

end Roto.Graph
