import Mathlib.Order.MinMax
import RotoCompiler.Lib.Components
import RotoCompiler.TypeChecker.ValueCycle

/-!
# Tarjan's algorithm finds the components

The open vertices are those whose references are being followed. From every vertex on the
stack some open vertex below it can be reached, and every open vertex leads to all that are
above it. While a vertex is explored its low link is a bound for the references from the
new part of the stack into the old part.
-/

namespace Roto.TypeChecker.ValueCycle
open Roto.Graph Relation

variable {V : Type} [LinearOrder V] {g : RefGraph V}

/-! ### The graph -/

def RefGraph.Edge (g : RefGraph V) (x y : V) : Prop := y ∈ g.refs x

/-- The vertices, some of them more than once. -/
def RefGraph.vertices (g : RefGraph V) : List V := g.names ++ g.names.flatMap g.refs

theorem RefGraph.mem_names_of_edge {x y : V} (h : g.Edge x y) : x ∈ g.names := by
  unfold RefGraph.names
  rw [Std.TreeMap.mem_keys]
  by_contra hx
  unfold RefGraph.Edge RefGraph.refs at h
  rw [Std.TreeMap.getD_eq_fallback hx, Std.TreeSet.mem_toList] at h
  exact Std.TreeSet.not_mem_emptyc h

theorem RefGraph.mem_vertices {v : V} :
    v ∈ g.vertices ↔ v ∈ g.names ∨ ∃ x, g.Edge x v := by
  unfold RefGraph.vertices
  rw [List.mem_append, List.mem_flatMap]
  refine or_congr_right ⟨fun ⟨x, _, h⟩ => ⟨x, h⟩, fun ⟨x, h⟩ => ⟨x, ?_, h⟩⟩
  exact g.mem_names_of_edge h

/-- The number of vertices outside of a set. -/
def RefGraph.outside (g : RefGraph V) (S : V → Prop) [DecidablePred S] : ℕ :=
  (g.vertices.filter fun v => decide (¬ S v)).length

section Outside

variable {S S' : V → Prop} [DecidablePred S] [DecidablePred S']

theorem outside_sublist (h : ∀ v, S v → S' v) :
    (g.vertices.filter fun v => decide (¬ S' v)).Sublist
      (g.vertices.filter fun v => decide (¬ S v)) := by
  refine List.monotone_filter_right g.vertices fun v hv => ?_
  simp only [decide_eq_true_eq] at hv ⊢
  exact fun hmem => hv (h v hmem)

theorem outside_le (h : ∀ v, S v → S' v) : g.outside S' ≤ g.outside S :=
  (outside_sublist h).length_le

theorem outside_lt (h : ∀ v, S v → S' v) {v : V} (hv : ¬ S v) (hv' : S' v)
    (hvert : v ∈ g.vertices) : g.outside S' < g.outside S := by
  refine lt_of_le_of_ne (outside_le h) fun heq => ?_
  have hmem : v ∈ g.vertices.filter fun v => decide (¬ S v) := by
    simp [hvert, hv]
  rw [← (outside_sublist h).eq_of_length heq, List.mem_filter] at hmem
  simp [hv'] at hmem

end Outside

/-! ### The state -/

namespace State

variable {s s' s₀ : State V}

def idx (s : State V) (v : V) : ℕ := s.vertices[v]?.elim 0 VertexState.index

def low (s : State V) (v : V) : ℕ := s.vertices[v]?.elim 0 VertexState.lowlink

/-- The vertices of the first state keep their indices and low links. -/
def Kept (s s' : State V) : Prop := ∀ u ∈ s.vertices, s'.vertices[u]? = s.vertices[u]?

theorem mem_iff {u : V} : u ∈ s.vertices ↔ ∃ x, s.vertices[u]? = some x := by
  rw [Std.TreeMap.mem_iff_isSome_getElem?, Option.isSome_iff_exists]

theorem getElem?_insert (m : Std.TreeMap V VertexState) (v u : V) (x : VertexState) :
    (m.insert v x)[u]? = if v = u then some x else m[u]? := by
  simp only [Std.TreeMap.getElem?_insert, compare_eq_iff_eq]

theorem mem_insert (m : Std.TreeMap V VertexState) (v u : V) (x : VertexState) :
    u ∈ m.insert v x ↔ v = u ∨ u ∈ m := by
  rw [Std.TreeMap.mem_insert, compare_eq_iff_eq]

theorem Kept.refl (s : State V) : Kept s s := fun _ _ => rfl

theorem Kept.mem (h : Kept s s') {u : V} (hu : u ∈ s.vertices) : u ∈ s'.vertices := by
  obtain ⟨x, hx⟩ := mem_iff.mp hu
  exact mem_iff.mpr ⟨x, (h u hu).trans hx⟩

theorem Kept.idx (h : Kept s s') {u : V} (hu : u ∈ s.vertices) : s'.idx u = s.idx u := by
  unfold State.idx
  rw [h u hu]

theorem Kept.low (h : Kept s s') {u : V} (hu : u ∈ s.vertices) : s'.low u = s.low u := by
  unfold State.low
  rw [h u hu]

/-- The number of vertices that have not been visited. -/
def unvisited (g : RefGraph V) (s : State V) : ℕ := g.outside fun v => v ∈ s.vertices

theorem updateLowlink_some {v : V} (hv : v ∈ s.vertices) (new : ℕ) :
    ∃ s', s.updateLowlink v new = some s' ∧ s'.stack = s.stack ∧ s'.nextIndex = s.nextIndex ∧
      s'.components = s.components ∧ (∀ u, u ∈ s'.vertices ↔ u ∈ s.vertices) ∧
      (∀ u, s'.idx u = s.idx u) ∧ s'.low v = min (s.low v) new ∧
      ∀ u, u ≠ v → s'.vertices[u]? = s.vertices[u]? := by
  obtain ⟨x, hx⟩ := mem_iff.mp hv
  refine ⟨{ s with vertices := s.vertices.insert v { x with lowlink := min x.lowlink new } },
    by simp [updateLowlink, hx], rfl, rfl, rfl, fun u => ?_, fun u => ?_, ?_, fun u hu => ?_⟩
  · rw [mem_insert]
    refine ⟨fun h => ?_, .inr⟩
    rcases h with rfl | h
    · exact hv
    · exact h
  · unfold idx
    rw [getElem?_insert]
    split_ifs with h
    · rw [← h, hx]
      rfl
    · rfl
  · unfold low
    rw [getElem?_insert, if_pos rfl, hx]
    rfl
  · exact (getElem?_insert ..).trans (if_neg (Ne.symm hu))

end State

/-! ### The invariant -/

structure Inv (g : RefGraph V) (active : List V) (s : State V) : Prop where
  parts : (s.stack ++ s.components.flatten).Nodup
  visited : ∀ v, v ∈ s.vertices ↔ v ∈ s.stack ∨ v ∈ s.components.flatten
  sound : ∀ v ∈ s.vertices, v ∈ g.vertices
  order : s.stack.Pairwise fun a b => s.idx b < s.idx a
  bound : ∀ v ∈ s.vertices, s.idx v < s.nextIndex
  onStack : ∀ x ∈ active, x ∈ s.stack
  down : ∀ x ∈ s.stack, ∃ y ∈ active, s.idx y ≤ s.idx x ∧ ReflTransGen g.Edge x y
  up : ∀ x ∈ active, ∀ y ∈ s.stack, s.idx x ≤ s.idx y → ReflTransGen g.Edge x y
  explored : ∀ x ∈ s.vertices, x ∉ active → ∀ y, g.Edge x y → y ∈ s.vertices
  condensation : Condensation g.Edge s.components

variable {active : List V} {s s' s₀ : State V} {v : V}

theorem Inv.new (g : RefGraph V) : Inv g [] State.new where
  parts := List.nodup_nil
  visited v := by simp [State.new]
  sound v hv := absurd hv Std.TreeMap.not_mem_emptyc
  order := .nil
  bound v hv := absurd hv Std.TreeMap.not_mem_emptyc
  onStack := by simp
  down := by simp [State.new]
  up := by simp
  explored v hv := absurd hv Std.TreeMap.not_mem_emptyc
  condensation := .nil

theorem Inv.mem_of_stack (h : Inv g active s) {x : V} (hx : x ∈ s.stack) : x ∈ s.vertices :=
  (h.visited x).mpr (.inl hx)

theorem Inv.congr (h : Inv g active s) (hstack : s'.stack = s.stack)
    (hnext : s'.nextIndex = s.nextIndex) (hcomps : s'.components = s.components)
    (hmem : ∀ u, u ∈ s'.vertices ↔ u ∈ s.vertices) (hidx : ∀ u, s'.idx u = s.idx u) :
    Inv g active s' where
  parts := by rw [hstack, hcomps]; exact h.parts
  visited u := by rw [hmem, hstack, hcomps]; exact h.visited u
  sound u hu := h.sound u ((hmem u).mp hu)
  order := by rw [hstack]; simpa only [hidx] using h.order
  bound u hu := by rw [hidx, hnext]; exact h.bound u ((hmem u).mp hu)
  onStack x hx := by rw [hstack]; exact h.onStack x hx
  down x hx := by
    simp only [hidx]
    exact h.down x (hstack ▸ hx)
  up x hx y hy hle := by
    rw [hidx, hidx] at hle
    exact h.up x hx y (hstack ▸ hy) hle
  explored x hx hp y hxy := (hmem y).mpr (h.explored x ((hmem x).mp hx) hp y hxy)
  condensation := by rw [hcomps]; exact h.condensation

/-- A vertex `v` is explored from the state `s₀`, and the references in `done` have been
followed. -/
structure Exploring (g : RefGraph V) (active : List V) (s₀ s : State V) (v : V) (done : List V) :
    Prop where
  base : Inv g active s₀
  inv : Inv g (v :: active) s
  fresh : v ∉ s₀.vertices
  kept : s₀.Kept s
  index : s.idx v = s₀.nextIndex
  next : s₀.nextIndex < s.nextIndex
  stack : ∃ new, s.stack = new ++ v :: s₀.stack
  low : s.low v = s₀.nextIndex ∨
    ∃ x ∈ s₀.stack, s.low v = s.idx x ∧ ReflTransGen g.Edge v x
  bound : ∀ y ∈ s.stack, y ∉ s₀.stack → ∀ x ∈ s₀.stack, g.Edge y x → (y = v → x ∈ done) →
    s.low v ≤ s.idx x
  followed : ∀ w ∈ done, w ∈ s.vertices

/-- What a call of `strongly_connect` for `v` leaves behind. -/
structure Connected (g : RefGraph V) (active : List V) (s s' : State V) (v : V) : Prop where
  inv : Inv g active s'
  kept : s.Kept s'
  mem : v ∈ s'.vertices
  next : s.nextIndex < s'.nextIndex
  stack : ∃ new, s'.stack = new ++ s.stack
  low : (s'.stack = s.stack ∧ s'.low v = s.nextIndex) ∨
    (∃ x ∈ s.stack, s'.low v = s'.idx x ∧ ReflTransGen g.Edge v x) ∧
      ∀ y ∈ s'.stack, y ∉ s.stack → ∀ x ∈ s.stack, g.Edge y x → s'.low v ≤ s'.idx x

/-! ### Entering a vertex -/

theorem kept_enter (hv : v ∉ s.vertices) : s.Kept (s.enter v) := by
  intro u hu
  have hne : v ≠ u := fun h => hv (h ▸ hu)
  exact (State.getElem?_insert ..).trans (if_neg hne)

theorem enter_entry (s : State V) (v : V) :
    (s.enter v).vertices[v]? = some ⟨s.nextIndex, s.nextIndex⟩ :=
  (State.getElem?_insert ..).trans (if_pos rfl)

theorem enter_idx (s : State V) (v : V) : (s.enter v).idx v = s.nextIndex := by
  unfold State.idx
  rw [enter_entry]
  rfl

theorem enter_low (s : State V) (v : V) : (s.enter v).low v = s.nextIndex := by
  unfold State.low
  rw [enter_entry]
  rfl

theorem mem_enter {u : V} : u ∈ (s.enter v).vertices ↔ v = u ∨ u ∈ s.vertices :=
  State.mem_insert ..

theorem exploring_enter (h : Inv g active s) (hv : v ∉ s.vertices) (hvert : v ∈ g.vertices)
    (hreach : ∀ x ∈ active, ReflTransGen g.Edge x v) : Exploring g active s (s.enter v) v [] := by
  have hkept := kept_enter hv
  have hidx : ∀ u ∈ s.stack, (s.enter v).idx u = s.idx u := fun u hu =>
    hkept.idx (h.mem_of_stack hu)
  have hlt : ∀ u ∈ s.stack, (s.enter v).idx u < (s.enter v).idx v := by
    intro u hu
    rw [hidx u hu, enter_idx]
    exact h.bound u (h.mem_of_stack hu)
  refine ⟨h, ⟨?_, fun u => ?_, fun u hu => ?_, ?_, fun u hu => ?_, fun x hx => ?_, fun x hx => ?_,
    fun x hx y hy hle => ?_, fun x hx hp y hxy => ?_, h.condensation⟩, hv, hkept, enter_idx s v,
    Nat.lt_succ_self _, ⟨[], rfl⟩, .inl (enter_low s v), fun y hy hy' x _ _ hdone => ?_, by simp⟩
  · refine List.nodup_cons.mpr ⟨fun hmem => hv ?_, h.parts⟩
    exact (h.visited v).mpr (List.mem_append.mp hmem)
  · rw [mem_enter, h.visited u]
    show _ ↔ u ∈ v :: s.stack ∨ u ∈ s.components.flatten
    rw [List.mem_cons, or_assoc, @eq_comm _ v u]
  · rcases mem_enter.mp hu with rfl | hu
    · exact hvert
    · exact h.sound u hu
  · refine List.pairwise_cons.mpr ⟨fun u hu => hlt u hu, ?_⟩
    refine h.order.imp_of_mem fun {a b} ha hb hab => ?_
    rw [hidx a ha, hidx b hb]
    exact hab
  · show (s.enter v).idx u < s.nextIndex + 1
    rcases mem_enter.mp hu with rfl | hu
    · rw [enter_idx]
      omega
    · rw [hkept.idx hu]
      have hb := h.bound u hu
      omega
  · rcases List.mem_cons.mp hx with rfl | hx
    · exact List.mem_cons_self ..
    · exact List.mem_cons_of_mem _ (h.onStack x hx)
  · rcases List.mem_cons.mp hx with rfl | hx
    · exact ⟨x, List.mem_cons_self .., le_rfl, .refl⟩
    · obtain ⟨y, hy, hle, hxy⟩ := h.down x hx
      refine ⟨y, List.mem_cons_of_mem _ hy, ?_, hxy⟩
      rw [hidx y (h.onStack y hy), hidx x hx]
      exact hle
  · rcases List.mem_cons.mp hx with rfl | hold
    · rcases List.mem_cons.mp hy with rfl | hy
      · exact .refl
      · have hb := hlt y hy
        omega
    · rcases List.mem_cons.mp hy with rfl | hy
      · exact hreach x hold
      · rw [hidx x (h.onStack x hold), hidx y hy] at hle
        exact h.up x hold y hy hle
  · rcases mem_enter.mp hx with rfl | hx
    · exact absurd (List.mem_cons_self ..) hp
    · exact hkept.mem (h.explored x hx (fun hmem => hp (List.mem_cons_of_mem _ hmem)) y hxy)
  · rcases List.mem_cons.mp hy with rfl | hy
    · exact absurd (hdone rfl) List.not_mem_nil
    · exact absurd hy hy'

/-! ### Following a reference -/

variable {done : List V}

namespace Exploring

theorem mem (h : Exploring g active s₀ s v done) : v ∈ s.stack :=
  h.inv.onStack v (List.mem_cons_self ..)

theorem mem_old (h : Exploring g active s₀ s v done) {x : V} (hx : x ∈ s₀.stack) : x ∈ s.stack := by
  obtain ⟨new, hnew⟩ := h.stack
  rw [hnew]
  exact List.mem_append_right _ (List.mem_cons_of_mem _ hx)

theorem old_lt (h : Exploring g active s₀ s v done) {x : V} (hx : x ∈ s₀.stack) :
    s.idx x < s₀.nextIndex := by
  have hmem := h.base.mem_of_stack hx
  rw [h.kept.idx hmem]
  exact h.base.bound x hmem

/-- The indices tell the new part of the stack from the old one. -/
theorem old_of_lt (h : Exploring g active s₀ s v done) {x : V} (hx : x ∈ s.stack)
    (hlt : s.idx x < s₀.nextIndex) : x ∈ s₀.stack := by
  obtain ⟨new, hnew⟩ := h.stack
  have horder := h.inv.order
  rw [hnew] at horder hx
  rcases List.mem_append.mp hx with hx | hx
  · have hgt := (List.pairwise_append.mp horder).2.2 x hx v (List.mem_cons_self ..)
    rw [h.index] at hgt
    omega
  · rcases List.mem_cons.mp hx with rfl | hx
    · rw [h.index] at hlt
      omega
    · exact hx

theorem low_le (h : Exploring g active s₀ s v done) : s.low v ≤ s₀.nextIndex := by
  rcases h.low with hlow | ⟨x, hx, hlow, -⟩
  · omega
  · have hlt := h.old_lt hx
    omega

theorem unvisited_lt (h : Exploring g active s₀ s v done) :
    State.unvisited g s < State.unvisited g s₀ := by
  have hv := h.inv.mem_of_stack h.mem
  exact outside_lt (fun u hu => h.kept.mem hu) h.fresh hv (h.inv.sound v hv)

/-- The low link of `v` is lowered after a reference to `w` has been followed. -/
theorem update (h : Exploring g active s₀ s v done) {s₁ : State V} {w : V} {k : ℕ}
    (hinv : Inv g (v :: active) s₁) (hkept : s.Kept s₁) (hnext : s.nextIndex ≤ s₁.nextIndex)
    (hstack : ∃ new, s₁.stack = new ++ s.stack) (hw : w ∈ s₁.vertices)
    (hk : s.low v ≤ k ∨ ∃ x ∈ s.stack, k = s₁.idx x ∧ ReflTransGen g.Edge v x)
    (hbound : ∀ y ∈ s₁.stack, ∀ x ∈ s₀.stack, g.Edge y x → y ∉ s.stack ∨ y = v ∧ x = w →
      s.low v ≤ s₁.idx x ∨ k ≤ s₁.idx x) :
    ∃ s₂, s₁.updateLowlink v k = some s₂ ∧ Exploring g active s₀ s₂ v (w :: done) := by
  have hv := h.inv.mem_of_stack h.mem
  obtain ⟨s₂, hs₂, hstack₂, hnext₂, hcomps₂, hmem₂, hidx₂, hlow₂, hother₂⟩ :=
    State.updateLowlink_some (hkept.mem hv) k
  have hlow : s₂.low v = min (s.low v) k := by rw [hlow₂, hkept.low hv]
  have hidx : ∀ x ∈ s.stack, s₂.idx x = s.idx x := fun x hx => by
    rw [hidx₂, hkept.idx (h.inv.mem_of_stack hx)]
  refine ⟨s₂, hs₂, h.base, hinv.congr hstack₂ hnext₂ hcomps₂ hmem₂ hidx₂, h.fresh, fun u hu => ?_,
    ?_, by have := h.next; omega, ?_, ?_, fun y hy hy' x hx hxy hdone => ?_, fun u hu => ?_⟩
  · have hne : u ≠ v := fun heq => h.fresh (heq ▸ hu)
    rw [hother₂ u hne, hkept u (h.kept.mem hu), h.kept u hu]
  · rw [hidx v h.mem, h.index]
  · obtain ⟨new, hnew⟩ := hstack
    obtain ⟨new', hnew'⟩ := h.stack
    exact ⟨new ++ new', by rw [hstack₂, hnew, hnew', List.append_assoc]⟩
  · rw [hlow]
    rcases le_total (s.low v) k with hle | hle
    · rw [min_eq_left hle]
      refine h.low.imp_right fun ⟨x, hx, heq, hreach⟩ => ⟨x, hx, ?_, hreach⟩
      rw [heq, hidx x (h.mem_old hx)]
    · rw [min_eq_right hle]
      rcases hk with hk | ⟨x, hx, hkx, hreach⟩
      · obtain rfl := le_antisymm hle hk
        refine h.low.imp_right fun ⟨x, hx, heq, hreach⟩ => ⟨x, hx, ?_, hreach⟩
        rw [heq, hidx x (h.mem_old hx)]
      · have heq : k = s.idx x := by rw [hkx, hkept.idx (h.inv.mem_of_stack hx)]
        have hle' := h.low_le
        rcases (show k = s₀.nextIndex ∨ k < s₀.nextIndex by omega) with hk | hk
        · exact .inl hk
        · refine .inr ⟨x, h.old_of_lt hx (by omega), ?_, hreach⟩
          rw [heq, hidx x hx]
  · rw [hlow, hidx x (h.mem_old hx)]
    have hidx₁ : s₁.idx x = s.idx x := hkept.idx (h.inv.mem_of_stack (h.mem_old hx))
    rw [hstack₂] at hy
    by_cases hcase : y ∉ s.stack ∨ y = v ∧ x = w
    · have hle := hbound y hy x hx hxy hcase
      rw [hidx₁] at hle
      exact min_le_iff.mpr hle
    · push Not at hcase
      refine min_le_iff.mpr (.inl (h.bound y hcase.1 hy' x hx hxy fun hyv => ?_))
      exact (List.mem_cons.mp (hdone hyv)).resolve_left (hcase.2 hyv)
  · rw [hmem₂]
    rcases List.mem_cons.mp hu with rfl | hu
    · exact hw
    · exact hkept.mem (h.followed u hu)

end Exploring

theorem follow_spec (h : Exploring g active s₀ s v done) {w : V} (hw : g.Edge v w)
    {connect : State V → V → Option (State V)}
    (hconnect : w ∉ s.vertices →
      ∃ s₁, connect s w = some s₁ ∧ Connected g (v :: active) s s₁ w) :
    ∃ s', follow connect v s w = some s' ∧ Exploring g active s₀ s' v (w :: done) := by
  unfold follow
  by_cases hmem : w ∈ s.vertices
  · have hcontains : (!s.vertices.contains w) = false := by simpa using hmem
    simp only [hcontains, Bool.false_eq_true, if_false]
    by_cases hstack : w ∈ s.stack
    · obtain ⟨x, hx⟩ := State.mem_iff.mp hmem
      have hidx : x.index = s.idx w := by simp [State.idx, hx]
      rw [if_pos hstack, hx]
      refine h.update h.inv (.refl s) le_rfl ⟨[], rfl⟩ hmem (.inr ⟨w, hstack, hidx, .single hw⟩) ?_
      rintro y hy x' hx' - (hy' | ⟨rfl, rfl⟩)
      · exact absurd hy hy'
      · exact .inr hidx.le
    · rw [if_neg hstack]
      refine ⟨s, rfl, h.base, h.inv, h.fresh, h.kept, h.index, h.next, h.stack, h.low,
        fun y hy hy' x hx hxy hdone => h.bound y hy hy' x hx hxy fun hyv => ?_, fun u hu => ?_⟩
      · refine (List.mem_cons.mp (hdone hyv)).resolve_left fun hxw => hstack ?_
        exact hxw ▸ h.mem_old hx
      · rcases List.mem_cons.mp hu with rfl | hu
        · exact hmem
        · exact h.followed u hu
  · have hcontains : s.vertices.contains w = false :=
      Bool.eq_false_iff.mpr fun h => hmem (Std.TreeMap.contains_iff_mem.mp h)
    obtain ⟨s₁, hs₁, hc⟩ := hconnect hmem
    obtain ⟨x, hx⟩ := State.mem_iff.mp hc.mem
    have hlow : x.lowlink = s₁.low w := by simp [State.low, hx]
    simp only [hcontains, Bool.not_false, if_true, hs₁, Option.bind_eq_bind, Option.bind_some, hx]
    have hfresh : ∀ y, y = w → y ∉ s.stack := fun y hy hys =>
      hmem (hy ▸ h.inv.mem_of_stack hys)
    refine h.update hc.inv hc.kept hc.next.le hc.stack hc.mem ?_ fun y hy x' hx' hxy hcase => ?_
    · rcases hc.low with ⟨-, heq⟩ | ⟨⟨z, hz, heq, hreach⟩, -⟩
      · left
        have hle := h.low_le
        have hnext := h.next
        omega
      · exact .inr ⟨z, hz, hlow.trans heq, .head hw hreach⟩
    · rcases hcase with hy' | ⟨rfl, rfl⟩
      · rcases hc.low with ⟨hsame, -⟩ | ⟨-, hbound⟩
        · exact absurd (hsame ▸ hy) hy'
        · exact .inr (hlow ▸ hbound y hy hy' x' (h.mem_old hx') hxy)
      · exact absurd (h.mem_old hx') (hfresh x' rfl)

/-! ### Finishing a vertex -/

theorem popUntil_split {new rest : List V} (h : v ∉ new) :
    popUntil v (new ++ v :: rest) = (new ++ [v], rest) := by
  induction new with
  | nil => simp [popUntil]
  | cons w new ih =>
    have hne : w ≠ v := fun heq => h (heq ▸ List.mem_cons_self ..)
    rw [List.cons_append, popUntil, if_neg hne, ih fun hmem => h (List.mem_cons_of_mem _ hmem)]
    rfl

namespace Exploring

/-- All references have been followed, and the low link of `v` is below its index: `v` leads
to an older vertex and stays on the stack. -/
theorem stay (h : Exploring g active s₀ s v done) (hdone : ∀ w, g.Edge v w → w ∈ done)
    (hlow : s.low v ≠ s₀.nextIndex) : Connected g active s₀ s v := by
  obtain ⟨x, hx, hlowx, hreach⟩ := h.low.resolve_left hlow
  have hv := h.inv.mem_of_stack h.mem
  obtain ⟨new, hnew⟩ := h.stack
  refine ⟨⟨h.inv.parts, h.inv.visited, h.inv.sound, h.inv.order, h.inv.bound,
    fun y hy => h.inv.onStack y (List.mem_cons_of_mem _ hy), fun y hy => ?_,
    fun y hy => h.inv.up y (List.mem_cons_of_mem _ hy), fun y hy hp z hyz => ?_,
    h.inv.condensation⟩, h.kept, hv, h.next, ⟨new ++ [v], by simp [hnew]⟩,
    .inr ⟨⟨x, hx, hlowx, hreach⟩, fun y hy hy' z hz hyz => ?_⟩⟩
  · obtain ⟨z, hz, hle, hyz⟩ := h.inv.down y hy
    rcases List.mem_cons.mp hz with rfl | hz
    · obtain ⟨u, hu, hux, hxu⟩ := h.base.down x hx
      refine ⟨u, hu, ?_, (hyz.trans hreach).trans hxu⟩
      have hlt := h.old_lt hx
      rw [h.kept.idx (h.base.mem_of_stack (h.base.onStack u hu))]
      rw [h.kept.idx (h.base.mem_of_stack hx)] at hlt
      have hindex := h.index
      omega
    · exact ⟨z, hz, hle, hyz⟩
  · by_cases hyv : y = v
    · subst hyv
      exact h.followed z (hdone z hyz)
    · exact h.inv.explored y hy (by simp [hyv, hp]) z hyz
  · refine h.bound y hy hy' z hz hyz fun hyv => hdone z ?_
    rw [← hyv]
    exact hyz

/-- All references have been followed, and the low link of `v` is its index: the part of the
stack from `v` on is a component. -/
theorem pop (h : Exploring g active s₀ s v done) (hdone : ∀ w, g.Edge v w → w ∈ done)
    (hlow : s.low v = s₀.nextIndex) {new : List V} (hnew : s.stack = new ++ v :: s₀.stack) :
    Connected g active s₀
      { s with stack := s₀.stack, components := s.components ++ [new ++ [v]] } v := by
  have hv := h.inv.mem_of_stack h.mem
  have hstack : s.stack = (new ++ [v]) ++ s₀.stack := by simp [hnew]
  have hparts := h.inv.parts
  rw [hstack] at hparts
  have hnd := List.nodup_append'.mp hparts
  have hnd' := List.nodup_append'.mp hnd.1
  have hold : ∀ x ∈ new ++ [v], x ∉ s₀.stack := fun x hx hx' => hnd'.2.2 hx hx'
  have hin : ∀ x ∈ new ++ [v], x ∈ s.stack := fun x hx => hstack ▸ List.mem_append_left _ hx
  have hge : ∀ x ∈ new ++ [v], s.idx v ≤ s.idx x := by
    intro x hx
    by_contra hlt
    exact hold x hx (h.old_of_lt (hin x hx) (by rw [← h.index]; omega))
  have hactive : ∀ x ∈ active, x ∈ s₀.stack := h.base.onStack
  -- references from the component lead nowhere else but to earlier components
  have hclosed : ∀ x ∈ new ++ [v], ∀ y, g.Edge x y →
      y ∈ s.components.flatten ∨ y ∈ new ++ [v] := by
    intro x hx y hxy
    have hy : y ∈ s.vertices := by
      by_cases hxv : x = v
      · exact h.followed y (hdone y (hxv ▸ hxy))
      · have hx' : x ∉ v :: active := by
          rw [List.mem_cons]
          rintro (heq | hmem)
          · exact hxv heq
          · exact hold x hx (hactive x hmem)
        exact h.inv.explored x (h.inv.mem_of_stack (hin x hx)) hx' y hxy
    rcases (h.inv.visited y).mp hy with hy | hy
    · rw [hstack] at hy
      rcases List.mem_append.mp hy with hy | hy
      · exact .inr hy
      · have hle := h.bound x (hin x hx) (hold x hx) y hy hxy fun hxv => hdone y (hxv ▸ hxy)
        have hlt := h.old_lt hy
        omega
    · exact .inl hy
  have hdown : ∀ x ∈ new ++ [v], ReflTransGen g.Edge x v := by
    intro x hx
    obtain ⟨z, hz, -, hxz⟩ := h.inv.down x (hin x hx)
    rcases List.mem_cons.mp hz with rfl | hz
    · exact hxz
    · have hS : z ∈ s.components.flatten ∨ z ∈ new ++ [v] := by
        refine mem_of_closed (S := fun y => y ∈ s.components.flatten ∨ y ∈ new ++ [v])
          (fun a b ha hab => ?_) (.inr hx) hxz
        rcases ha with ha | ha
        · exact .inl (h.inv.condensation.closed _ (List.prefix_refl _) a ha b hab)
        · exact hclosed a ha b hab
      rcases hS with hS | hS
      · exact absurd hS (fun hS => hnd.2.2 (List.mem_append_right _ (hactive z hz)) hS)
      · exact absurd (hactive z hz) (hold z hS)
  have hup : ∀ y ∈ new ++ [v], ReflTransGen g.Edge v y := fun y hy =>
    h.inv.up v (List.mem_cons_self ..) y (hin y hy) (hge y hy)
  have hidx : ∀ x ∈ s₀.stack, s.idx x = s₀.idx x := fun x hx => h.kept.idx (h.base.mem_of_stack hx)
  refine ⟨⟨?_, fun u => ?_, h.inv.sound, ?_, h.inv.bound, hactive, fun x hx => ?_,
    fun x hx y hy hle => ?_, fun x hx hp y hxy => ?_, ?_⟩, h.kept, hv, h.next, ⟨[], rfl⟩,
    .inl ⟨rfl, hlow⟩⟩
  · rw [List.flatten_append, List.flatten_singleton, ← List.append_assoc]
    refine (List.Perm.nodup_iff ?_).mpr hparts
    rw [List.append_assoc (new ++ [v])]
    exact List.perm_append_comm
  · show u ∈ s.vertices ↔ u ∈ s₀.stack ∨ u ∈ (s.components ++ [new ++ [v]]).flatten
    rw [h.inv.visited u, hstack, List.flatten_append, List.flatten_singleton]
    simp only [List.mem_append]
    tauto
  · have hsub := h.inv.order
    rw [hstack] at hsub
    exact (List.pairwise_append.mp hsub).2.1
  · obtain ⟨y, hy, hle, hxy⟩ := h.base.down x hx
    refine ⟨y, hy, ?_, hxy⟩
    show s.idx y ≤ s.idx x
    rw [hidx x hx, hidx y (hactive y hy)]
    exact hle
  · exact h.inv.up x (List.mem_cons_of_mem _ hx) y (h.mem_old hy) hle
  · by_cases hxv : x = v
    · exact h.followed y (hdone y (hxv ▸ hxy))
    · exact h.inv.explored x hx (by simp [hxv, hp]) y hxy
  · refine h.inv.condensation.concat hnd'.1 (fun x hx hx' => ?_) (fun x hx y hy => ?_) hclosed
    · exact hnd.2.2 (List.mem_append_left _ hx) hx'
    · exact (hdown x hx).trans (hup y hy)

end Exploring

theorem finish_spec (h : Exploring g active s₀ s v done) (hdone : ∀ w, g.Edge v w → w ∈ done) :
    ∃ s', finish v s = some s' ∧ Connected g active s₀ s' v := by
  have hv := h.inv.mem_of_stack h.mem
  obtain ⟨x, hx⟩ := State.mem_iff.mp hv
  have hindex : x.index = s₀.nextIndex := by
    rw [← h.index]
    simp [State.idx, hx]
  have hlink : x.lowlink = s.low v := by simp [State.low, hx]
  obtain ⟨new, hnew⟩ := h.stack
  unfold finish
  simp only [hx, Option.bind_eq_bind, Option.bind_some, hindex, hlink]
  by_cases hlow : s.low v = s₀.nextIndex
  · rw [if_pos hlow.symm]
    have hv' : v ∉ new := by
      have hnd := h.inv.order.imp (fun {a b} hab => (ne_of_gt hab : s.idx a ≠ s.idx b))
      rw [hnew] at hnd
      intro hmem
      exact (List.pairwise_append.mp hnd).2.2 v hmem v (List.mem_cons_self ..) rfl
    refine ⟨_, rfl, ?_⟩
    simp only [hnew, popUntil_split hv']
    exact h.pop hdone hlow hnew
  · rw [if_neg (Ne.symm hlow)]
    exact ⟨s, rfl, h.stay hdone hlow⟩

/-! ### The recursion -/

theorem followAll_spec {connect : State V → V → Option (State V)} (ws : List V)
    (h : Exploring g active s₀ s v done) (hws : ∀ w ∈ ws, g.Edge v w)
    (hconnect : ∀ s w, Inv g (v :: active) s → State.unvisited g s < State.unvisited g s₀ →
      w ∉ s.vertices → w ∈ g.vertices → (∀ x ∈ v :: active, ReflTransGen g.Edge x w) →
      ∃ s₁, connect s w = some s₁ ∧ Connected g (v :: active) s s₁ w) :
    ∃ s', ws.foldlM (follow connect v) s = some s' ∧
      Exploring g active s₀ s' v (ws.reverse ++ done) := by
  induction ws generalizing s done with
  | nil => exact ⟨s, rfl, h⟩
  | cons w ws ih =>
    have hw := hws w (List.mem_cons_self ..)
    -- every open vertex leads to `v`
    have hreach : ∀ x ∈ v :: active, ReflTransGen g.Edge x w := by
      intro x hx
      refine .tail (h.inv.up x hx v h.mem ?_) hw
      rcases List.mem_cons.mp hx with rfl | hx
      · exact le_rfl
      · rw [h.index]
        exact (h.old_lt (h.base.onStack x hx)).le
    obtain ⟨s₁, hs₁, h₁⟩ := follow_spec h hw fun hmem =>
      hconnect s w h.inv h.unvisited_lt hmem (RefGraph.mem_vertices.mpr (.inr ⟨v, hw⟩)) hreach
    obtain ⟨s', hs', h'⟩ := ih h₁ fun u hu => hws u (List.mem_cons_of_mem _ hu)
    refine ⟨s', by rw [List.foldlM_cons, hs₁]; exact hs', ?_⟩
    rwa [List.reverse_cons, List.append_assoc]

/-- With fuel for every vertex that has not been visited a call gives an answer, and its
state is as it should be. -/
theorem stronglyConnect_spec {fuel : ℕ} (h : Inv g active s) (hv : v ∉ s.vertices)
    (hvert : v ∈ g.vertices) (hreach : ∀ x ∈ active, ReflTransGen g.Edge x v)
    (hfuel : State.unvisited g s < fuel) :
    ∃ s', stronglyConnect g fuel s v = some s' ∧ Connected g active s s' v := by
  induction fuel generalizing active s v with
  | zero => omega
  | succ fuel ih =>
    have henter := exploring_enter h hv hvert hreach
    obtain ⟨s₁, hs₁, h₁⟩ := followAll_spec (g.refs v) henter (fun w hw => hw)
      fun s' w hinv hlt hmem hvert hreach => ih hinv hmem hvert hreach (by omega)
    obtain ⟨s', hs', hc⟩ := finish_spec h₁ fun w hw => by
      rw [List.append_nil, List.mem_reverse]
      exact hw
    exact ⟨s', by rw [stronglyConnect, hs₁]; exact hs', hc⟩

theorem unvisited_new_le (g : RefGraph V) : State.unvisited g State.new ≤ g.vertices.length :=
  List.length_filter_le ..

theorem tarjanAll_spec {fuel : ℕ} {names : List V} (h : Inv g [] s) (hnames : ∀ v ∈ names, v ∈ g.names)
    (hfuel : State.unvisited g s < fuel) :
    ∃ s', names.foldlM (fun s v =>
        if !s.vertices.contains v then stronglyConnect g fuel s v else some s) s = some s' ∧
      Inv g [] s' ∧ (∀ v ∈ s.vertices, v ∈ s'.vertices) ∧ ∀ v ∈ names, v ∈ s'.vertices := by
  induction names generalizing s with
  | nil => exact ⟨s, rfl, h, fun _ => id, by simp⟩
  | cons v names ih =>
    obtain ⟨hv, hnames⟩ := List.forall_mem_cons.mp hnames
    obtain ⟨s₁, hs₁, h₁, hkept, hmem⟩ : ∃ s₁,
        (if !s.vertices.contains v then stronglyConnect g fuel s v else some s) = some s₁ ∧
          Inv g [] s₁ ∧ (∀ u ∈ s.vertices, u ∈ s₁.vertices) ∧ v ∈ s₁.vertices := by
      by_cases hmem : v ∈ s.vertices
      · rw [if_neg (by simpa using hmem)]
        exact ⟨s, rfl, h, fun _ => id, hmem⟩
      · have hcontains : s.vertices.contains v = false :=
          Bool.eq_false_iff.mpr fun h => hmem (Std.TreeMap.contains_iff_mem.mp h)
        rw [if_pos (by rw [hcontains]; rfl)]
        obtain ⟨s₁, hs₁, hc⟩ := stronglyConnect_spec h hmem (RefGraph.mem_vertices.mpr (.inl hv))
          (by simp) hfuel
        exact ⟨s₁, hs₁, hc.inv, fun u hu => hc.kept.mem hu, hc.mem⟩
    obtain ⟨s', hs', h', hkept', hmem'⟩ := ih h₁ hnames ((outside_le hkept).trans_lt hfuel)
    refine ⟨s', by rw [List.foldlM_cons, hs₁]; exact hs', h', fun u hu => hkept' u (hkept u hu), ?_⟩
    intro u hu
    rcases List.mem_cons.mp hu with rfl | hu
    · exact hkept' u hmem
    · exact hmem' u hu

/-- The components of the graph, each after those that it leads to. -/
theorem tarjan_spec {fuel : ℕ} (hfuel : g.vertices.length < fuel) :
    ∃ comps, tarjan g fuel = some comps ∧ Condensation g.Edge comps ∧
      ∀ v, v ∈ comps.flatten ↔ v ∈ g.vertices := by
  obtain ⟨s, hs, h, -, hnames⟩ := tarjanAll_spec (Inv.new g) (fun _ => id)
    ((unvisited_new_le g).trans_lt hfuel)
  have hstack : s.stack = [] := by
    refine List.eq_nil_iff_forall_not_mem.mpr fun x hx => ?_
    obtain ⟨y, hy, -⟩ := h.down x hx
    exact List.not_mem_nil hy
  have hvisited : ∀ v, v ∈ s.vertices ↔ v ∈ s.components.flatten := by
    intro v
    rw [h.visited v, hstack]
    simp
  refine ⟨s.components, by rw [tarjan, hs]; rfl, h.condensation, fun v => ?_⟩
  rw [← hvisited]
  refine ⟨h.sound v, fun hv => ?_⟩
  rcases RefGraph.mem_vertices.mp hv with hv | ⟨x, hx⟩
  · exact hnames v hv
  · exact h.explored x (hnames x (g.mem_names_of_edge hx)) List.not_mem_nil v hx

/-! ### No component is empty -/

/-- What is below the first occurrence of `v` is left. -/
theorem popUntil_below (new rest : List V) :
    ∃ new', (popUntil v (new ++ v :: rest)).2 = new' ++ rest := by
  induction new with
  | nil => exact ⟨[], by simp [popUntil]⟩
  | cons w new ih =>
    by_cases hw : w = v
    · exact ⟨new ++ [v], by simp [popUntil, hw]⟩
    · obtain ⟨new', hnew⟩ := ih
      refine ⟨new', ?_⟩
      rw [List.cons_append, popUntil, if_neg hw]
      exact hnew

theorem popUntil_ne_nil {stack : List V} (h : stack ≠ []) : (popUntil v stack).1 ≠ [] := by
  cases stack with
  | nil => exact absurd rfl h
  | cons w stack =>
    rw [popUntil]
    split_ifs <;> simp

/-- A stack that only grew, and components none of which is empty if none was. -/
structure Grown (s s' : State V) : Prop where
  stack : ∃ new, s'.stack = new ++ s.stack
  components : (∀ c ∈ s.components, c ≠ []) → ∀ c ∈ s'.components, c ≠ []

theorem Grown.refl (s : State V) : Grown s s := ⟨⟨[], rfl⟩, id⟩

theorem Grown.trans {s s₁ s₂ : State V} (h : Grown s s₁) (h' : Grown s₁ s₂) : Grown s s₂ := by
  obtain ⟨new, hnew⟩ := h.stack
  obtain ⟨new', hnew'⟩ := h'.stack
  exact ⟨⟨new' ++ new, by rw [hnew', hnew, List.append_assoc]⟩,
    fun hc => h'.components (h.components hc)⟩

theorem grown_updateLowlink {k : ℕ} (h : s.updateLowlink v k = some s') : Grown s s' := by
  obtain ⟨x, -, hx⟩ := Option.bind_eq_some_iff.mp h
  obtain rfl := Option.some.inj hx
  exact ⟨⟨[], rfl⟩, id⟩

theorem grown_follow {connect : State V → V → Option (State V)}
    (hconnect : ∀ s w s', connect s w = some s' → Grown s s') {w : V}
    (h : follow connect v s w = some s') : Grown s s' := by
  unfold follow at h
  split_ifs at h with hmem hstack
  · obtain ⟨s₁, hs₁, h⟩ := Option.bind_eq_some_iff.mp h
    obtain ⟨x, -, h⟩ := Option.bind_eq_some_iff.mp h
    exact (hconnect s w s₁ hs₁).trans (grown_updateLowlink h)
  · obtain ⟨x, -, h⟩ := Option.bind_eq_some_iff.mp h
    exact grown_updateLowlink h
  · obtain rfl := Option.some.inj h
    exact .refl s

theorem grown_foldlM {connect : State V → V → Option (State V)} {ws : List V}
    (hconnect : ∀ s w s', w ∈ ws → connect s w = some s' → Grown s s')
    (h : ws.foldlM connect s = some s') : Grown s s' := by
  induction ws generalizing s with
  | nil =>
    obtain rfl := Option.some.inj h
    exact .refl s
  | cons w ws ih =>
    rw [List.foldlM_cons] at h
    obtain ⟨s₁, hs₁, h⟩ := Option.bind_eq_some_iff.mp h
    have hrest := ih (fun s w s' hw => hconnect s w s' (List.mem_cons_of_mem _ hw)) h
    exact (hconnect s w s₁ List.mem_cons_self hs₁).trans hrest

/-- The vertex that was entered is still on the stack when it is finished. -/
theorem grown_finish (h : Grown (s₀.enter v) s) (hfinish : finish v s = some s') : Grown s₀ s' := by
  obtain ⟨new, hnew⟩ := h.stack
  have hstack : s.stack = new ++ v :: s₀.stack := hnew
  unfold finish at hfinish
  obtain ⟨x, -, hfinish⟩ := Option.bind_eq_some_iff.mp hfinish
  split_ifs at hfinish
  · obtain rfl := Option.some.inj hfinish
    refine ⟨?_, fun hc c hmem => ?_⟩
    · obtain ⟨new', hnew'⟩ := popUntil_below (v := v) new s₀.stack
      exact ⟨new', by rw [← hnew', ← hstack]⟩
    · rcases List.mem_append.mp hmem with hmem | hmem
      · exact h.components hc c hmem
      · obtain rfl := List.mem_singleton.mp hmem
        apply popUntil_ne_nil
        rw [hstack]
        simp
  · obtain rfl := Option.some.inj hfinish
    exact ⟨⟨new ++ [v], by simp [hstack]⟩, h.components⟩

theorem grown_stronglyConnect {fuel : ℕ} (h : stronglyConnect g fuel s v = some s') :
    Grown s s' := by
  induction fuel generalizing s v s' with
  | zero => cases h
  | succ fuel ih =>
    rw [stronglyConnect] at h
    obtain ⟨s₁, hs₁, hfinish⟩ := Option.bind_eq_some_iff.mp h
    refine grown_finish ?_ hfinish
    exact grown_foldlM (fun _ _ _ _ hfollow => grown_follow (fun _ _ _ hc => ih hc) hfollow) hs₁

theorem tarjan_ne_nil {fuel : ℕ} {comps : List (List V)} (h : tarjan g fuel = some comps) :
    ∀ c ∈ comps, c ≠ [] := by
  obtain ⟨s, hs, h⟩ := Option.bind_eq_some_iff.mp h
  obtain rfl := Option.some.inj h
  have hgrown : Grown State.new s := by
    refine grown_foldlM (fun s w s' _ hconnect => ?_) hs
    split_ifs at hconnect
    · exact grown_stronglyConnect hconnect
    · obtain rfl := Option.some.inj hconnect
      exact .refl s
  exact hgrown.components fun c hc => absurd hc List.not_mem_nil

/-- The components partition the vertices: each is a class of vertices that lead to each other,
and it comes after all other components that it has edges to. -/
theorem tarjan_components (g : RefGraph V) {fuel : ℕ} (hfuel : g.vertices.length < fuel) :
    ∃ comps, tarjan g fuel = some comps ∧
      (∀ v, v ∈ comps.flatten ↔ v ∈ g.names ∨ ∃ x, g.Edge x v) ∧ comps.flatten.Nodup ∧
      (∀ c ∈ comps, c ≠ []) ∧
      (∀ x y, x ∈ comps.flatten → ((∃ c ∈ comps, x ∈ c ∧ y ∈ c) ↔
        ReflTransGen g.Edge x y ∧ ReflTransGen g.Edge y x)) ∧
      ∀ (i j : ℕ) c d x y, comps[i]? = some c → comps[j]? = some d → x ∈ c → y ∈ d →
        g.Edge x y → i ≠ j → j < i := by
  obtain ⟨comps, hcomps, hcond, hmem⟩ := tarjan_spec hfuel
  refine ⟨comps, hcomps, fun v => ?_, hcond.nodup, tarjan_ne_nil hcomps, ?_, ?_⟩
  · rw [hmem, RefGraph.mem_vertices]
  · intro x y hx
    exact hcond.together_iff hx
  · intro i j c d x y hi hj hx hy hxy hne
    have hle := hcond.le_of_edge hi hj hx hy hxy
    omega

/-- The graph of the test `one_two_three_four`; nothing is said about the references of 4. -/
def oneTwoThreeFour : RefGraph ℕ :=
  ((((RefGraph.new.addEdge 1 2).addEdge 2 3).addEdge 2 4).addEdge 3 2).addEdge 3 4

theorem one_two_three_four :
    ReflTransGen oneTwoThreeFour.Edge 3 2 ∧ ReflTransGen oneTwoThreeFour.Edge 2 3 := by
  have hfuel : oneTwoThreeFour.vertices.length < 10 := by decide
  obtain ⟨comps, hcomps, -, -, -, hsame, -⟩ := tarjan_components oneTwoThreeFour hfuel
  have hrun : tarjan oneTwoThreeFour 10 = some [[4], [3, 2], [1]] := by decide
  obtain rfl := Option.some.inj (hcomps.symm.trans hrun)
  exact (hsame 3 2 (by decide)).mp ⟨[3, 2], by decide, by decide, by decide⟩

end Roto.TypeChecker.ValueCycle
