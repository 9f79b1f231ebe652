import Mathlib.Logic.Relation
import Mathlib.Data.List.Basic
import Mathlib.Data.List.Infix
import Mathlib.Data.List.Nodup

/-!
# Strongly connected components in order

A list of components of a directed graph such that every component is strongly connected and
edges never lead to a later component. Then a vertex lies on a cycle exactly when it has an
edge to itself or its component has another vertex, and a vertex that is alone comes after
all that it leads to.
-/

namespace Roto.Graph
open Relation

variable {α : Type*} {r : α → α → Prop} {comps : List (List α)}

structure Condensation (r : α → α → Prop) (comps : List (List α)) : Prop where
  nodup : comps.flatten.Nodup
  connected : ∀ c ∈ comps, ∀ x ∈ c, ∀ y ∈ c, ReflTransGen r x y
  closed : ∀ done, done <+: comps → ∀ x ∈ done.flatten, ∀ y, r x y → y ∈ done.flatten

/-- A walk does not leave a set without edges out of it. -/
theorem mem_of_closed {S : α → Prop} (h : ∀ x y, S x → r x y → S y) {x y : α} (hx : S x)
    (hxy : ReflTransGen r x y) : S y := by
  induction hxy with
  | refl => exact hx
  | tail _ hyz ih => exact h _ _ ih hyz

namespace Condensation

theorem nil : Condensation r [] where
  nodup := List.nodup_nil
  connected := by simp
  closed done hd := by
    obtain rfl := List.prefix_nil.mp hd
    simp

/-- One more component, whose edges lead to itself and to the components before it. -/
theorem concat (h : Condensation r comps) {c : List α} (hnd : c.Nodup)
    (hdisj : ∀ x ∈ c, x ∉ comps.flatten) (hconn : ∀ x ∈ c, ∀ y ∈ c, ReflTransGen r x y)
    (hclosed : ∀ x ∈ c, ∀ y, r x y → y ∈ comps.flatten ∨ y ∈ c) :
    Condensation r (comps ++ [c]) where
  nodup := by
    rw [List.flatten_append, List.flatten_singleton]
    exact h.nodup.append hnd fun x hx hc => hdisj x hc hx
  connected d hd := by
    rcases List.mem_append.mp hd with hd | hd
    · exact h.connected d hd
    · rw [List.mem_singleton.mp hd]
      exact hconn
  closed done hdone x hx y hxy := by
    rcases List.prefix_concat_iff.mp hdone with rfl | hdone
    · rw [List.flatten_append, List.flatten_singleton, List.mem_append] at hx ⊢
      rcases hx with hx | hx
      · exact .inl (h.closed comps (List.prefix_refl comps) x hx y hxy)
      · exact hclosed x hx y hxy
    · exact h.closed done hdone x hx y hxy

theorem reach (h : Condensation r comps) {done : List (List α)} (hd : done <+: comps) {x y : α}
    (hx : x ∈ done.flatten) (hxy : ReflTransGen r x y) : y ∈ done.flatten :=
  mem_of_closed (fun a b ha hab => h.closed done hd a ha b hab) hx hxy

theorem prefix_of_split {before after : List (List α)} {c : List α}
    (hc : comps = before ++ c :: after) : before ++ [c] <+: comps :=
  ⟨after, by rw [hc, List.append_assoc, List.singleton_append]⟩

theorem not_mem_before (h : Condensation r comps) {before after : List (List α)} {c : List α}
    (hc : comps = before ++ c :: after) {x : α} (hx : x ∈ c) : x ∉ before.flatten := by
  have hnd := h.nodup
  rw [hc, List.flatten_append, List.flatten_cons] at hnd
  intro hb
  exact List.disjoint_of_nodup_append hnd hb (List.mem_append_left _ hx)

/-- What a vertex leads to is in its component or before it. -/
theorem mem_of_reach (h : Condensation r comps) {before after : List (List α)} {c : List α}
    (hc : comps = before ++ c :: after) {x y : α} (hx : x ∈ c) (hxy : ReflTransGen r x y) :
    y ∈ before.flatten ∨ y ∈ c := by
  have hin : x ∈ (before ++ [c]).flatten := by simp [hx]
  have hy := h.reach (prefix_of_split hc) hin hxy
  rwa [List.flatten_append, List.flatten_singleton, List.mem_append] at hy

/-- A vertex from which there is a way back is in the same component. -/
theorem mem_of_cycle (h : Condensation r comps) {before after : List (List α)} {c : List α}
    (hc : comps = before ++ c :: after) {x y : α} (hx : x ∈ c) (hxy : ReflTransGen r x y)
    (hyx : ReflTransGen r y x) : y ∈ c := by
  refine (h.mem_of_reach hc hx hxy).resolve_left fun hy => ?_
  have hpre : before <+: comps := ⟨c :: after, hc.symm⟩
  exact h.not_mem_before hc hx (h.reach hpre hy hyx)

/-- Vertices are in one component exactly when each leads to the other. -/
theorem together_iff (h : Condensation r comps) {x y : α} (hx : x ∈ comps.flatten) :
    (∃ c ∈ comps, x ∈ c ∧ y ∈ c) ↔ ReflTransGen r x y ∧ ReflTransGen r y x := by
  constructor
  · rintro ⟨c, hc, hxc, hyc⟩
    exact ⟨h.connected c hc x hxc y hyc, h.connected c hc y hyc x hxc⟩
  · rintro ⟨hxy, hyx⟩
    obtain ⟨c, hc, hxc⟩ := List.mem_flatten.mp hx
    obtain ⟨before, after, hsplit⟩ := List.append_of_mem hc
    exact ⟨c, hc, hxc, h.mem_of_cycle hsplit hxc hxy hyx⟩

/-- No edge leads to a later component. -/
theorem le_of_edge (h : Condensation r comps) {i j : ℕ} {c d : List α} (hi : comps[i]? = some c)
    (hj : comps[j]? = some d) {x y : α} (hx : x ∈ c) (hy : y ∈ d) (hxy : r x y) : j ≤ i := by
  by_contra hlt
  obtain ⟨hlen, hc⟩ := List.getElem?_eq_some_iff.mp hi
  have hsplit : comps = comps.take i ++ c :: comps.drop (i + 1) := by
    rw [← hc, List.getElem_cons_drop, List.take_append_drop]
  have hafter : y ∈ (comps.drop (i + 1)).flatten := by
    refine List.mem_flatten.mpr ⟨d, List.mem_of_getElem? (i := j - (i + 1)) ?_, hy⟩
    rw [List.getElem?_drop, show i + 1 + (j - (i + 1)) = j by omega]
    exact hj
  have hnd := h.nodup
  rw [hsplit, List.flatten_append, List.flatten_cons, ← List.append_assoc] at hnd
  refine List.disjoint_of_nodup_append hnd (List.mem_append.mpr ?_) hafter
  exact h.mem_of_reach hsplit hx (.single hxy)

theorem onCycle_iff (h : Condensation r comps) {c : List α} (hc : c ∈ comps) {x : α} (hx : x ∈ c) :
    TransGen r x x ↔ r x x ∨ 1 < c.length := by
  obtain ⟨before, after, hsplit⟩ := List.append_of_mem hc
  have hnd : c.Nodup := (List.nodup_flatten.mp h.nodup).1 c hc
  constructor
  · intro hcycle
    obtain ⟨y, hxy, hyx⟩ := TransGen.head'_iff.mp hcycle
    by_cases heq : y = x
    · exact .inl (heq ▸ hxy)
    · have hy := h.mem_of_cycle hsplit hx (.single hxy) hyx
      right
      by_contra hlen
      obtain ⟨z, rfl⟩ : ∃ z, c = [z] := by
        rw [← List.length_eq_one_iff]
        have hpos := List.length_pos_of_mem hx
        omega
      exact heq ((List.mem_singleton.mp hy).trans (List.mem_singleton.mp hx).symm)
  · rintro (hself | hlen)
    · exact .single hself
    · obtain ⟨y, hy, hne⟩ : ∃ y ∈ c, y ≠ x := by
        match c, hlen, hnd with
        | a :: b :: rest, _, hnd =>
          have hab : a ≠ b := fun heq => (List.nodup_cons.mp hnd).1 (by simp [heq])
          by_cases ha : a = x
          · exact ⟨b, by simp, fun hb => hab (ha.trans hb.symm)⟩
          · exact ⟨a, by simp, ha⟩
      have hxy := (reflTransGen_iff_eq_or_transGen.mp (h.connected c hc x hx y hy)).resolve_left hne
      exact hxy.trans_left (h.connected c hc y hy x hx)

/-- A vertex on no cycle comes after all that it leads to. -/
theorem before_of_reach (h : Condensation r comps) {x : α} (hx : x ∈ comps.flatten)
    (hcycle : ¬ TransGen r x x) :
    ∃ before after, comps.flatten = before ++ x :: after ∧ ∀ y, TransGen r x y → y ∈ before := by
  obtain ⟨c, hc, hxc⟩ := List.mem_flatten.mp hx
  obtain ⟨before, after, hsplit⟩ := List.append_of_mem hc
  have hlen : ¬ 1 < c.length := fun hlen => hcycle ((h.onCycle_iff hc hxc).mpr (.inr hlen))
  obtain ⟨z, rfl⟩ : ∃ z, c = [z] := by
    rw [← List.length_eq_one_iff]
    have hpos := List.length_pos_of_mem hxc
    omega
  obtain rfl := List.mem_singleton.mp hxc
  refine ⟨before.flatten, after.flatten, by simp [hsplit], fun y hy => ?_⟩
  refine (h.mem_of_reach hsplit hxc hy.to_reflTransGen).resolve_right fun hyx => ?_
  rw [List.mem_singleton.mp hyx] at hy
  exact hcycle hy

end Condensation

end Roto.Graph
