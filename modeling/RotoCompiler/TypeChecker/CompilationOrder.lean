import RotoCompiler.TypeChecker.Tarjan
import Mathlib.Data.Nat.Basic

/-!
# The compilation order

While nothing has been found that uses the context, the answers that are stored are all
`false`, and the references of a finished vertex have all been visited: a provisional answer
is wrong only if the whole search ends with `true`.
-/

namespace Roto.TypeChecker.ValueCycle
open Roto.Graph Relation

variable {V : Type} [LinearOrder V] {g : RefGraph V} {declaration : V → Declaration}

/-! ### The use of context fields -/

/-- The vertex leads to a context field. -/
def ReachesContext (declaration : V → Declaration) (g : RefGraph V) (v : V) : Prop :=
  ∃ f, isContext declaration f = true ∧ ReflTransGen g.Edge v f

structure Searched (declaration : V → Declaration) (g : RefGraph V) (active : List V)
    (s : ContextSearch V) : Prop where
  stored : ∀ v b, s.usesContext[v]? = some b → b = false ∧ v ∈ s.visited
  noContext : ∀ v ∈ s.visited, isContext declaration v = false
  closed : ∀ v ∈ s.visited, v ∉ active → ∀ w, g.Edge v w → w ∈ s.visited

namespace ContextSearch

/-- The number of vertices that have not been visited. -/
def unvisited (g : RefGraph V) (s : ContextSearch V) : ℕ := g.outside fun v => v ∈ s.visited

theorem mem_insert (m : Std.TreeSet V) (v u : V) : u ∈ m.insert v ↔ v = u ∨ u ∈ m := by
  rw [Std.TreeSet.mem_insert, compare_eq_iff_eq]

end ContextSearch

/-- What an answer says: `true` is right, and with `false` the search goes on. -/
structure Answered (declaration : V → Declaration) (g : RefGraph V) (active : List V)
    (s s' : ContextSearch V) (names : List V) (b : Bool) : Prop where
  found : b = true → ∃ name ∈ names, ReachesContext declaration g name
  searched : b = false → Searched declaration g active s'
  kept : b = false → ∀ u ∈ s.visited, u ∈ s'.visited
  visited : b = false → ∀ name ∈ names, name ∈ s'.visited

theorem anyUsesContext_spec {active : List V} {s : ContextSearch V} {names : List V}
    {determine : ContextSearch V → V → Option (Bool × ContextSearch V)} {bound : ℕ}
    (h : Searched declaration g active s) (hbound : s.unvisited g < bound)
    (hdetermine : ∀ s name, Searched declaration g active s → s.unvisited g < bound →
      name ∈ names → ∃ b s', determine s name = some (b, s') ∧
        Answered declaration g active s s' [name] b) :
    ∃ b s', anyUsesContext determine s names = some (b, s') ∧
      Answered declaration g active s s' names b := by
  induction names generalizing s with
  | nil => exact ⟨false, s, rfl, nofun, fun _ => h, fun _ _ => id, fun _ => by simp⟩
  | cons name names ih =>
    obtain ⟨b, s₁, hs₁, ha⟩ := hdetermine s name h hbound (List.mem_cons_self ..)
    simp only [anyUsesContext, hs₁, Option.bind_eq_bind, Option.bind_some]
    cases b with
    | true =>
      obtain ⟨u, hu, hreach⟩ := ha.found rfl
      refine ⟨true, s₁, rfl, fun _ => ⟨u, ?_, hreach⟩, nofun, nofun, nofun⟩
      exact List.mem_cons.mpr (.inl (List.mem_singleton.mp hu))
    | false =>
      have hle : s₁.unvisited g ≤ s.unvisited g := outside_le (ha.kept rfl)
      obtain ⟨b, s', hs', ha'⟩ := ih (ha.searched rfl) (by omega) fun s u hs hlt hu =>
        hdetermine s u hs hlt (List.mem_cons_of_mem _ hu)
      refine ⟨b, s', hs', fun hb => ?_, ha'.searched, fun hb u hu => ha'.kept hb u (ha.kept rfl u hu),
        fun hb u hu => ?_⟩
      · obtain ⟨u, hu, hreach⟩ := ha'.found hb
        exact ⟨u, List.mem_cons_of_mem _ hu, hreach⟩
      · rcases List.mem_cons.mp hu with rfl | hu
        · exact ha'.kept hb u (ha.visited rfl u (List.mem_singleton.mpr rfl))
        · exact ha'.visited hb u hu

theorem determineUsesContext_spec {fuel : ℕ} {active : List V} {s : ContextSearch V} {name : V}
    (h : Searched declaration g active s) (hname : name ∈ g.vertices)
    (hfuel : s.unvisited g < fuel) :
    ∃ b s', determineUsesContext declaration g fuel s name = some (b, s') ∧
      Answered declaration g active s s' [name] b := by
  induction fuel generalizing active s name with
  | zero => omega
  | succ fuel ih =>
    cases hstored : s.usesContext[name]? with
    | some b =>
      obtain ⟨rfl, hmem⟩ := h.stored name b hstored
      refine ⟨false, s, by simp only [determineUsesContext, hstored], nofun, fun _ => h,
        fun _ _ => id, fun _ u hu => ?_⟩
      rwa [List.mem_singleton.mp hu]
    | none =>
      simp only [determineUsesContext, hstored]
      by_cases hmem : name ∈ s.visited
      · rw [if_pos (Std.TreeSet.contains_iff_mem.mpr hmem)]
        refine ⟨false, s, rfl, nofun, fun _ => h, fun _ _ => id, fun _ u hu => ?_⟩
        rwa [List.mem_singleton.mp hu]
      rw [if_neg fun hc => hmem (Std.TreeSet.contains_iff_mem.mp hc)]
      by_cases hctx : isContext declaration name = true
      · rw [if_pos hctx]
        exact ⟨true, _, rfl, fun _ => ⟨name, List.mem_singleton.mpr rfl, name, hctx, .refl⟩,
          nofun, nofun, nofun⟩
      rw [if_neg hctx]
      have hkept : ∀ u ∈ s.visited, u ∈ s.visited.insert name := fun u hu =>
        (ContextSearch.mem_insert ..).mpr (.inr hu)
      have hself : name ∈ s.visited.insert name := (ContextSearch.mem_insert ..).mpr (.inl rfl)
      have henter : Searched declaration g (name :: active)
          { s with visited := s.visited.insert name } := by
        refine ⟨fun v b hv => ?_, fun v hv => ?_, fun v hv hactive w hw => ?_⟩
        · obtain ⟨hb, hv⟩ := h.stored v b hv
          exact ⟨hb, hkept v hv⟩
        · rcases (ContextSearch.mem_insert ..).mp hv with rfl | hv
          · exact Bool.eq_false_iff.mpr hctx
          · exact h.noContext v hv
        · rcases (ContextSearch.mem_insert ..).mp hv with rfl | hv
          · exact absurd (List.mem_cons_self ..) hactive
          · exact hkept w (h.closed v hv (fun hm => hactive (List.mem_cons_of_mem _ hm)) w hw)
      have hlt : ContextSearch.unvisited g { s with visited := s.visited.insert name } < fuel := by
        have hdec : g.outside (fun v => v ∈ s.visited.insert name) < s.unvisited g :=
          outside_lt hkept hmem hself hname
        exact hdec.trans_le (Nat.lt_succ_iff.mp hfuel)
      obtain ⟨b, s', hs', ha⟩ := anyUsesContext_spec henter hlt fun s u hs hlt hu =>
        ih hs (RefGraph.mem_vertices.mpr (.inr ⟨name, hu⟩)) hlt
      refine ⟨b, { s' with usesContext := s'.usesContext.insert name b },
        by rw [hs']; rfl, fun hb => ?_, fun hb => ?_, fun hb u hu => ha.kept hb u (hkept u hu),
        fun hb u hu => ?_⟩
      · obtain ⟨u, hu, f, hf, hreach⟩ := ha.found hb
        exact ⟨name, List.mem_singleton.mpr rfl, f, hf, .head hu hreach⟩
      · have hs := ha.searched hb
        refine ⟨fun v c hv => ?_, hs.noContext, fun v hv hactive w hw => ?_⟩
        · simp only [Std.TreeMap.getElem?_insert, compare_eq_iff_eq] at hv
          split_ifs at hv with heq
          · exact ⟨by rw [← Option.some.inj hv, hb], heq ▸ ha.kept hb name hself⟩
          · exact hs.stored v c hv
        · by_cases heq : v = name
          · subst heq
            exact ha.visited hb w hw
          · exact hs.closed v hv (by simp [heq, hactive]) w hw
      · rw [List.mem_singleton.mp hu]
        exact ha.kept hb name hself

/-- Nothing that has been visited leads to a context field, when the search is over. -/
theorem Searched.not_reaches {s : ContextSearch V} (h : Searched declaration g [] s) {v : V}
    (hv : v ∈ s.visited) : ¬ ReachesContext declaration g v := by
  rintro ⟨f, hf, hreach⟩
  have hvisited : f ∈ s.visited := mem_of_closed (S := fun u => u ∈ s.visited)
    (fun x y hx hxy => h.closed x hx List.not_mem_nil y hxy) hv hreach
  rw [h.noContext f hvisited] at hf
  cases hf

theorem contextCheckFrom_spec {fuel : ℕ} {s : ContextSearch V} {names : List V}
    (h : Searched declaration g [] s) (hnames : ∀ v ∈ names, v ∈ g.names)
    (hfuel : s.unvisited g < fuel) :
    ∃ r, contextCheckFrom declaration g fuel s names = some r ∧
      (r.isSome ↔ ∃ c ∈ names, isConstant declaration c = true ∧ ReachesContext declaration g c) := by
  induction names generalizing s with
  | nil => exact ⟨none, rfl, by simp⟩
  | cons c names ih =>
    obtain ⟨hc, hnames⟩ := List.forall_mem_cons.mp hnames
    simp only [contextCheckFrom]
    by_cases hconst : isConstant declaration c = true
    · rw [if_pos hconst]
      obtain ⟨b, s', hs', ha⟩ := determineUsesContext_spec h (RefGraph.mem_vertices.mpr (.inl hc)) hfuel
      simp only [hs', Option.bind_eq_bind, Option.bind_some]
      cases b with
      | true =>
        obtain ⟨u, hu, hreach⟩ := ha.found rfl
        rw [List.mem_singleton.mp hu] at hreach
        exact ⟨some c, rfl, by simp [hconst, hreach]⟩
      | false =>
        have hle : s'.unvisited g ≤ s.unvisited g := outside_le (ha.kept rfl)
        obtain ⟨r, hr, hiff⟩ := ih (ha.searched rfl) hnames (by omega)
        have hnot := (ha.searched rfl).not_reaches (ha.visited rfl c (List.mem_singleton.mpr rfl))
        exact ⟨r, hr, by simp [hiff, hnot]⟩
    · rw [if_neg hconst]
      obtain ⟨r, hr, hiff⟩ := ih h hnames hfuel
      exact ⟨r, hr, by simp [hiff, hconst]⟩

theorem contextCheck_spec (declaration : V → Declaration) {fuel : ℕ} (hfuel : g.vertices.length < fuel) :
    ∃ r, contextCheck declaration g fuel = some r ∧
      (r.isSome ↔ ∃ c ∈ g.names, isConstant declaration c = true ∧
        ReachesContext declaration g c) := by
  refine contextCheckFrom_spec ⟨fun v b hv => ?_, fun v hv => ?_, fun v hv => ?_⟩ (fun _ => id)
    (lt_of_le_of_lt (List.length_filter_le ..) hfuel)
  · cases hv
  · exact absurd hv Std.TreeSet.not_mem_emptyc
  · exact absurd hv Std.TreeSet.not_mem_emptyc

/-! ### The order -/

/-- A constant is part of its own definition. -/
def Recursive (declaration : V → Declaration) (g : RefGraph V) : Prop :=
  ∃ c, isConstant declaration c = true ∧ TransGen g.Edge c c

/-- A constant depends on a context field. -/
def DependsOnContext (declaration : V → Declaration) (g : RefGraph V) : Prop :=
  ∃ c f, isConstant declaration c = true ∧ isContext declaration f = true ∧ TransGen g.Edge c f

theorem edge_of_transGen {x y : V} (h : TransGen g.Edge x y) : x ∈ g.names := by
  obtain ⟨z, hxz, -⟩ := TransGen.head'_iff.mp h
  exact g.mem_names_of_edge hxz

theorem dependsOnContext_iff :
    DependsOnContext declaration g ↔
      ∃ c ∈ g.names, isConstant declaration c = true ∧ ReachesContext declaration g c := by
  constructor
  · rintro ⟨c, f, hc, hf, hcf⟩
    exact ⟨c, edge_of_transGen hcf, hc, f, hf, hcf.to_reflTransGen⟩
  · rintro ⟨c, -, hc, f, hf, hcf⟩
    refine ⟨c, f, hc, hf, (reflTransGen_iff_eq_or_transGen.mp hcf).resolve_left fun heq => ?_⟩
    -- no declaration is both
    subst heq
    simp only [isConstant, decide_eq_true_eq] at hc
    simp [isContext, hc] at hf

/-- There is an error if and only if a constant is on a cycle of references or leads to a
context field; otherwise the vertices are listed once each, and every constant comes after
all that it leads to. -/
theorem findCompilationOrder_correct (declaration : V → Declaration) (g : RefGraph V) {fuel : ℕ}
    (hfuel : g.vertices.length < fuel) :
    ∃ r, findCompilationOrder declaration g fuel = some r ∧
      ((∃ e, r = .error e) ↔ Recursive declaration g ∨ DependsOnContext declaration g) ∧
      ∀ order, r = .ok order →
        order.Nodup ∧ (∀ v, v ∈ order ↔ v ∈ g.vertices) ∧
        ∀ c ∈ order, isConstant declaration c = true →
          ∃ before after, order = before ++ c :: after ∧
            ∀ w, TransGen g.Edge c w → w ∈ before := by
  unfold findCompilationOrder
  cases hself : g.names.find? fun name =>
      isConstant declaration name && decide (name ∈ g.refs name) with
  | some c =>
    have hc := List.find?_some hself
    simp only [Bool.and_eq_true, decide_eq_true_eq] at hc
    refine ⟨_, rfl, ⟨fun _ => .inl ⟨c, hc.1, .single hc.2⟩, fun _ => ⟨_, rfl⟩⟩, nofun⟩
  | none =>
    obtain ⟨comps, hcomps, hcond, hmem⟩ := tarjan_spec hfuel
    simp only [hcomps, Option.bind_eq_bind, Option.bind_some]
    -- without self references a constant is on a cycle only if its component is larger
    have hcycle : ∀ c, isConstant declaration c = true →
        (TransGen g.Edge c c ↔ ∃ d ∈ comps, 1 < d.length ∧ c ∈ d) := by
      intro c hc
      have hno : ¬ g.Edge c c := fun hcc => by
        have hnone := List.find?_eq_none.mp hself c (g.mem_names_of_edge hcc)
        simp only [hc, Bool.true_and, decide_eq_true_eq] at hnone
        exact hnone hcc
      constructor
      · intro h
        have hvert : c ∈ comps.flatten :=
          (hmem c).mpr (RefGraph.mem_vertices.mpr (.inl (edge_of_transGen h)))
        obtain ⟨d, hd, hcd⟩ := List.mem_flatten.mp hvert
        exact ⟨d, hd, ((hcond.onCycle_iff hd hcd).mp h).resolve_left hno, hcd⟩
      · rintro ⟨d, hd, hlen, hcd⟩
        exact (hcond.onCycle_iff hd hcd).mpr (.inr hlen)
    cases hlarge : (comps.filter fun c => 1 < c.length).flatten.find? (isConstant declaration) with
    | some c =>
      have hc := List.find?_some hlarge
      obtain ⟨d, hd, hcd⟩ := List.mem_flatten.mp (List.mem_of_find?_eq_some hlarge)
      obtain ⟨hd, hlen⟩ := List.mem_filter.mp hd
      have hon := (hcycle c hc).mpr ⟨d, hd, by simpa using hlen, hcd⟩
      exact ⟨_, rfl, ⟨fun _ => .inl ⟨c, hc, hon⟩, fun _ => ⟨_, rfl⟩⟩, nofun⟩
    | none =>
      have hnot : ∀ c, isConstant declaration c = true → ¬ TransGen g.Edge c c := by
        intro c hc hon
        obtain ⟨d, hd, hlen, hcd⟩ := (hcycle c hc).mp hon
        have hmem : c ∈ (comps.filter fun c => 1 < c.length).flatten :=
          List.mem_flatten.mpr ⟨d, List.mem_filter.mpr ⟨hd, by simpa using hlen⟩, hcd⟩
        exact List.find?_eq_none.mp hlarge c hmem hc
      have hnorec : ¬ Recursive declaration g := fun ⟨c, hc, hon⟩ => hnot c hc hon
      obtain ⟨r, hr, hiff⟩ := contextCheck_spec declaration hfuel
      rw [← dependsOnContext_iff] at hiff
      simp only [hr, Option.bind_some]
      cases r with
      | some c =>
        exact ⟨_, rfl, ⟨fun _ => .inr (hiff.mp rfl), fun _ => ⟨_, rfl⟩⟩, nofun⟩
      | none =>
        refine ⟨_, rfl, ⟨nofun, fun h => ?_⟩, fun order horder => ?_⟩
        · rcases h with h | h
          · exact absurd h hnorec
          · exact absurd (hiff.mpr h) (by simp)
        · obtain rfl := Except.ok.inj horder
          exact ⟨hcond.nodup, hmem, fun c hc hconst =>
            hcond.before_of_reach hc (hnot c hconst)⟩

/-! ### `const A: u32 = f(); fn f() -> u32 { f() }` -/

def constantAndFunction : RefGraph ℕ := (RefGraph.new.addEdge 0 1).addEdge 1 1

def declarationOf (n : ℕ) : Declaration :=
  ⟨⟨1, if n = 0 then "A" else "f"⟩, if n = 0 then .value .constant else .function, n, none⟩

theorem constant_after_function :
    ∃ before after, [1, 0] = before ++ 0 :: after ∧
      ∀ w, TransGen constantAndFunction.Edge 0 w → w ∈ before := by
  have hfuel : constantAndFunction.vertices.length < 5 := by decide
  obtain ⟨r, hr, -, horder⟩ := findCompilationOrder_correct declarationOf constantAndFunction hfuel
  have hrun : findCompilationOrder declarationOf constantAndFunction 5 = some (.ok [1, 0]) := rfl
  obtain rfl := Option.some.inj (hr.symm.trans hrun)
  exact (horder [1, 0] rfl).2.2 0 (by decide) rfl

end Roto.TypeChecker.ValueCycle
