import RotoCompiler.Lib.Graph
import RotoCompiler.TypeChecker.Types

/-!
# The union-find store (typechecker/unionfind.rs)

A vector of types indexed by type variable. An entry that is a variable of
another index is a link; an entry that is a variable of its own index is unset.
`find` follows links and compresses the path it followed. Its recursion is
bounded by fuel here: it has none in the source, and does not return when the
links form a cycle.
-/

namespace Roto.TypeChecker
open Relation

structure UnionFind where
  inner : List Typ
  deriving DecidableEq, Repr

namespace UnionFind

def empty : UnionFind := ⟨[]⟩

/-- `UnionFind::set`. -/
def set (uf : UnionFind) (index : ℕ) (t : Typ) : UnionFind := ⟨uf.inner.set index t⟩

/-- `UnionFind::fresh`. -/
def fresh (uf : UnionFind) (f : ℕ → Typ) : Typ × UnionFind :=
  (f uf.inner.length, ⟨uf.inner ++ [f uf.inner.length]⟩)

/-- `UnionFind::find`; `none` when the fuel runs out or an index is out of bounds. -/
def find : ℕ → UnionFind → ℕ → Option (Typ × UnionFind)
  | 0, _, _ => none
  | fuel + 1, uf, index =>
    match uf.inner[index]? with
    | none => none
    | some t =>
      match t.varIndex with
      | some i =>
        if i ≠ index then
          match find fuel uf i with
          | none => none
          | some (newT, uf') => some (newT, uf'.set index newT)
        else some (t, uf)
      | none => some (t, uf)

/-- `UnionFind::find_ref`. -/
def findRef : ℕ → UnionFind → ℕ → Option Typ
  | 0, _, _ => none
  | fuel + 1, uf, index =>
    match uf.inner[index]? with
    | none => none
    | some t =>
      match t.varIndex with
      | some i => if i ≠ index then findRef fuel uf i else some t
      | none => some t

/-- `TypeInfo::resolve` and `TypeChecker::resolve_type`. -/
def resolve (fuel : ℕ) (uf : UnionFind) (t : Typ) : Option (Typ × UnionFind) :=
  match t.varIndex with
  | some x => uf.find fuel x
  | none => some (t, uf)

end UnionFind

/-! ### The variables of a type -/

mutual
/-- The variables a type mentions. The fields kept inside a record variable are
those of its entry in the store and count there. -/
def Typ.vars : Typ → List ℕ
  | .var n => [n]
  | .intVar n _ => [n]
  | .floatVar n => [n]
  | .recordVar n _ => [n]
  | .record fs => Typ.varsFields fs
  | .function ps r => Typ.varsList ps ++ Typ.vars r
  | .name _ as => Typ.varsList as
  | .explicitVar _ => []
  | .unit => []
  | .never => []

def Typ.varsList : List Typ → List ℕ
  | [] => []
  | t :: ts => Typ.vars t ++ Typ.varsList ts

def Typ.varsFields : List (Meta Identifier × Typ) → List ℕ
  | [] => []
  | (_, t) :: fs => Typ.vars t ++ Typ.varsFields fs
end

theorem Typ.mem_varsList {x : ℕ} {ts : List Typ} :
    x ∈ Typ.varsList ts ↔ ∃ t ∈ ts, x ∈ t.vars := by
  induction ts with
  | nil => simp [Typ.varsList]
  | cons t ts ih => simp [Typ.varsList, ih]

theorem Typ.mem_varsFields {x : ℕ} {fs : Fields} :
    x ∈ Typ.varsFields fs ↔ ∃ f ∈ fs, x ∈ f.2.vars := by
  induction fs with
  | nil => simp [Typ.varsFields]
  | cons f fs ih => simp [Typ.varsFields, ih]

theorem Typ.vars_of_varIndex {t : Typ} {i : ℕ} (h : t.varIndex = some i) : t.vars = [i] := by
  cases t <;> simp_all [Typ.varIndex, Typ.vars]

/-- The variables that entry `i` of the store leads to: those of its type, or, for
an unset record variable, those of its fields. -/
def Typ.targets (i : ℕ) (t : Typ) : List ℕ :=
  match t with
  | .recordVar k fs => if k = i then Typ.varsFields fs else [k]
  | .var k => if k = i then [] else [k]
  | .intVar k _ => if k = i then [] else [k]
  | .floatVar k => if k = i then [] else [k]
  | t => t.vars

theorem Typ.targets_link {t : Typ} {i j : ℕ} (h : t.varIndex = some j) (hne : j ≠ i) :
    t.targets i = [j] := by
  cases t <;> simp_all [Typ.varIndex, Typ.targets]

theorem Typ.targets_of_varIndex_none {t : Typ} {i : ℕ} (h : t.varIndex = none) :
    t.targets i = t.vars := by
  cases t <;> simp_all [Typ.varIndex, Typ.targets]

/-- The variables behind a root: those of its type, or of the fields of an unset
record variable. -/
def Typ.behind : Typ → List ℕ
  | .recordVar _ fs => Typ.varsFields fs
  | .var _ => []
  | .intVar _ _ => []
  | .floatVar _ => []
  | t => t.vars

theorem Typ.targets_subset {t : Typ} {i j : ℕ} (h : j ∈ t.targets i) :
    j ∈ t.vars ∨ ∃ fs, t = .recordVar i fs ∧ j ∈ Typ.varsFields fs := by
  cases t <;> simp only [Typ.targets, Typ.vars] at h ⊢
  all_goals first | exact Or.inl h | (split at h <;> simp_all)

namespace UnionFind

/-- An edge of the binding graph: the entry of `i` mentions `j`. -/
def Dep (uf : UnionFind) (i j : ℕ) : Prop := ∃ t, uf.inner[i]? = some t ∧ j ∈ t.targets i

/-- No variable is bound, directly or through other variables, to a type that
contains it. -/
def Acyclic (uf : UnionFind) : Prop := Graph.Acyclic uf.Dep

/-- An unset variable is its own entry. -/
def Unset (uf : UnionFind) (i : ℕ) : Prop := ∃ t, uf.inner[i]? = some t ∧ t.varIndex = some i

/-! ### What `find` answers -/

/-- The entry at the end of the chain of links that starts at an index. -/
inductive Root (uf : UnionFind) : ℕ → Typ → Prop where
  | here {i : ℕ} {t : Typ} (hi : uf.inner[i]? = some t)
      (ht : ∀ j, t.varIndex = some j → j = i) : Root uf i t
  | link {i j : ℕ} {t r : Typ} (hi : uf.inner[i]? = some t) (ht : t.varIndex = some j)
      (hne : j ≠ i) (hj : Root uf j r) : Root uf i r

variable {uf uf' : UnionFind}

theorem Root.unique {i : ℕ} {t u : Typ} (ht : Root uf i t) (hu : Root uf i u) : t = u := by
  induction ht with
  | here hi hself =>
    cases hu with
    | here hi' _ => rw [hi] at hi'; exact Option.some.inj hi'
    | link hi' hv hne _ =>
      rw [hi] at hi'
      obtain rfl := Option.some.inj hi'
      exact absurd (hself _ hv) hne
  | link hi hv hne _ ih =>
    cases hu with
    | here hi' hself =>
      rw [hi] at hi'
      obtain rfl := Option.some.inj hi'
      exact absurd (hself _ hv) hne
    | link hi' hv' _ hj' =>
      rw [hi] at hi'
      obtain rfl := Option.some.inj hi'
      rw [hv] at hv'
      obtain rfl := Option.some.inj hv'
      exact ih hj'

/-- A root that is a variable is the entry of that variable. -/
theorem Root.slot {i k : ℕ} {t : Typ} (h : Root uf i t) (hk : t.varIndex = some k) :
    uf.inner[k]? = some t := by
  induction h with
  | here hi hself => rw [hself k hk]; exact hi
  | link _ _ _ _ ih => exact ih hk

theorem Root.of_unset {k : ℕ} {t : Typ} (h : uf.inner[k]? = some t) (hk : t.varIndex = some k) :
    Root uf k t := .here h fun j hj => by rw [hk] at hj; exact (Option.some.inj hj).symm

/-- What lies behind the root of `i` lies behind `i`. -/
theorem Root.dep {i : ℕ} {t : Typ} (h : Root uf i t) {y : ℕ}
    (hy : y ∈ t.targets i) : TransGen uf.Dep i y := by
  induction h with
  | here hi _ => exact .single ⟨_, hi, hy⟩
  | @link i j t r hi hv hne hj ih =>
    have hij : uf.Dep i j := ⟨t, hi, by rw [Typ.targets_link hv hne]; simp⟩
    cases hr : r.varIndex with
    | none =>
      rw [Typ.targets_of_varIndex_none hr] at hy
      exact .head hij (ih (by rw [Typ.targets_of_varIndex_none hr]; exact hy))
    | some k =>
      by_cases hki : k = i
      · -- the chain would come back to `i`, whose entry is a link
        subst hki
        have hs := hj.slot hr
        rw [hi] at hs
        obtain rfl := Option.some.inj hs
        rw [hv] at hr
        exact absurd (Option.some.inj hr) hne
      · rw [Typ.targets_link hr hki] at hy
        obtain rfl := List.mem_singleton.mp hy
        by_cases hkj : y = j
        · subst hkj; exact .single hij
        · exact .head hij (ih (by rw [Typ.targets_link hr hkj]; simp))

/-- What the fields of an unset record variable mention lies behind every link to it. -/
theorem Root.dep_fields {i k : ℕ} {fs : Fields} (h : Root uf i (.recordVar k fs)) {y : ℕ}
    (hy : y ∈ Typ.varsFields fs) : TransGen uf.Dep i y := by
  have hk : uf.Dep k y := ⟨_, h.slot rfl, by simpa [Typ.targets] using hy⟩
  by_cases hki : k = i
  · exact hki ▸ .single hk
  · exact (h.dep (by simp [Typ.targets, hki])).tail hk

/-- A store after path compression: the same variables with the same roots, the
unset ones unchanged, and no way through the store that was not there. -/
structure Compressed (uf uf' : UnionFind) : Prop where
  length : uf'.inner.length = uf.inner.length
  root : ∀ i t, Root uf' i t ↔ Root uf i t
  unset : ∀ (i : ℕ) (t : Typ), t.varIndex = some i → (uf'.inner[i]? = some t ↔ uf.inner[i]? = some t)
  dep : ∀ i j, uf'.Dep i j → TransGen uf.Dep i j
  entry : ∀ (i : ℕ) (t : Typ), uf'.inner[i]? = some t → uf.inner[i]? = some t ∨ Root uf i t

theorem Compressed.refl (uf : UnionFind) : Compressed uf uf :=
  ⟨rfl, fun _ _ => Iff.rfl, fun _ _ _ => Iff.rfl, fun _ _ h => .single h, fun _ _ h => Or.inl h⟩

theorem Compressed.trans {uf₁ uf₂ uf₃ : UnionFind} (h : Compressed uf₁ uf₂)
    (h' : Compressed uf₂ uf₃) : Compressed uf₁ uf₃ where
  length := h'.length.trans h.length
  root i t := (h'.root i t).trans (h.root i t)
  unset i t ht := (h'.unset i t ht).trans (h.unset i t ht)
  dep i j hij := Graph.transGen_of_le h.dep (h'.dep i j hij)
  entry i t ht := by
    rcases h'.entry i t ht with h₂ | h₂
    · exact h.entry i t h₂
    · exact Or.inr ((h.root i t).mp h₂)

theorem Compressed.acyclic (h : Compressed uf uf') (ha : uf.Acyclic) : uf'.Acyclic :=
  Graph.Acyclic.of_le ha h.dep

theorem inner_set_self {i : ℕ} {t : Typ} (hi : i < uf.inner.length) :
    (uf.set i t).inner[i]? = some t := by
  simp [set, hi]

theorem inner_set_ne {i j : ℕ} {t : Typ} (h : i ≠ j) :
    (uf.set i t).inner[j]? = uf.inner[j]? := by
  simp [set, h]

/-- The one step of path compression: a link is replaced by the root behind it. -/
theorem compressed_set {i j : ℕ} {t r : Typ} (hi : uf.inner[i]? = some t)
    (hv : t.varIndex = some j) (hne : j ≠ i) (hr : Root uf j r) :
    Compressed uf (uf.set i r) := by
  have hlt : i < uf.inner.length := (List.getElem?_eq_some_iff.mp hi).1
  have hri : Root uf i r := .link hi hv hne hr
  -- the root is not the link that is replaced
  have hk : ∀ k, r.varIndex = some k → k ≠ i := by
    rintro k hk rfl
    have hs := hr.slot hk
    rw [hi] at hs
    obtain rfl := Option.some.inj hs
    rw [hv] at hk
    exact hne (Option.some.inj hk)
  have hkeep : ∀ k, r.varIndex = some k → (uf.set i r).inner[k]? = some r := fun k hkk => by
    rw [inner_set_ne (hk k hkk).symm]
    exact hr.slot hkk
  refine ⟨by simp [set], fun x u => ⟨fun h => ?_, fun h => ?_⟩, fun x u hx => ?_, ?_,
    fun x u hx => ?_⟩
  · induction h with
    | @here x u hx hself =>
      by_cases hxi : i = x
      · subst hxi
        rw [inner_set_self hlt] at hx
        obtain rfl := Option.some.inj hx
        exact hri
      · rw [inner_set_ne hxi] at hx
        exact .here hx hself
    | @link x y u v hx hu hyx hy ih =>
      by_cases hxi : i = x
      · subst hxi
        rw [inner_set_self hlt] at hx
        obtain rfl := Option.some.inj hx
        have hy' : Root uf y r := Root.of_unset (hr.slot hu) hu
        rw [ih.unique hy']
        exact hri
      · rw [inner_set_ne hxi] at hx
        exact .link hx hu hyx ih
  · induction h with
    | @here x u hx hself =>
      by_cases hxi : i = x
      · subst hxi
        rw [hi] at hx
        obtain rfl := Option.some.inj hx
        exact absurd (hself _ hv) hne
      · exact .here (by rw [inner_set_ne hxi]; exact hx) hself
    | @link x y u v hx hu hyx hy ih =>
      by_cases hxi : i = x
      · subst hxi
        have huv : v = r := (Root.link hx hu hyx hy).unique hri
        subst huv
        cases hrk : v.varIndex with
        | none => exact .here (inner_set_self hlt) (by simp [hrk])
        | some k =>
          exact .link (inner_set_self hlt) hrk (hk k hrk) (Root.of_unset (hkeep k hrk) hrk)
      · exact .link (by rw [inner_set_ne hxi]; exact hx) hu hyx ih
  · by_cases hxi : i = x
    · subst hxi
      rw [inner_set_self hlt, hi]
      refine ⟨fun h => ?_, fun h => ?_⟩
      · obtain rfl := Option.some.inj h
        exact absurd rfl (hk _ hx)
      · obtain rfl := Option.some.inj h
        rw [hv] at hx
        exact absurd (Option.some.inj hx) hne
    · rw [inner_set_ne hxi]
  · rintro x y ⟨u, hu, hy⟩
    by_cases hxi : i = x
    · subst hxi
      rw [inner_set_self hlt] at hu
      obtain rfl := Option.some.inj hu
      exact hri.dep hy
    · rw [inner_set_ne hxi] at hu
      exact .single ⟨u, hu, hy⟩
  · by_cases hxi : i = x
    · subst hxi
      rw [inner_set_self hlt] at hx
      obtain rfl := Option.some.inj hx
      exact Or.inr hri
    · rw [inner_set_ne hxi] at hx
      exact Or.inl hx

theorem find_spec {fuel i : ℕ} {t : Typ} (h : uf.find fuel i = some (t, uf')) :
    Root uf i t ∧ Compressed uf uf' := by
  induction fuel generalizing i t uf' with
  | zero => simp [find] at h
  | succ fuel ih =>
    simp only [find] at h
    cases hi : uf.inner[i]? with
    | none => simp [hi] at h
    | some u =>
      simp only [hi] at h
      cases hu : u.varIndex with
      | none =>
        simp only [hu, Option.some.injEq, Prod.mk.injEq] at h
        obtain ⟨rfl, rfl⟩ := h
        exact ⟨.here hi (by simp [hu]), .refl uf⟩
      | some j =>
        simp only [hu] at h
        by_cases hji : j = i
        · simp only [hji, ne_eq, not_true_eq_false, if_false, Option.some.injEq,
            Prod.mk.injEq] at h
          obtain ⟨rfl, rfl⟩ := h
          exact ⟨.here hi (by simp [hu, hji]), .refl uf⟩
        · simp only [ne_eq, hji, not_false_eq_true, if_true] at h
          cases hf : uf.find fuel j with
          | none => simp [hf] at h
          | some p =>
            obtain ⟨r, uf₁⟩ := p
            simp only [hf, Option.some.injEq, Prod.mk.injEq] at h
            obtain ⟨rfl, rfl⟩ := h
            obtain ⟨hr, hc⟩ := ih hf
            refine ⟨.link hi hu hji hr, hc.trans ?_⟩
            -- the link at `i` may itself have been compressed by the inner call
            have hr₁ : Root uf₁ i r := (hc.root i r).mpr (.link hi hu hji hr)
            cases hr₁ with
            | here hi' hself =>
              have hsame : uf₁.set i r = uf₁ := by
                obtain ⟨hlt, hget⟩ := List.getElem?_eq_some_iff.mp hi'
                simp only [set, ← hget, List.set_getElem_self]
              rw [hsame]
              exact .refl uf₁
            | link hi' hv' hne' hr' => exact compressed_set hi' hv' hne' hr'

theorem find_mono {fuel i : ℕ} {r : Typ × UnionFind} (h : uf.find fuel i = some r) {fuel' : ℕ}
    (hle : fuel ≤ fuel') : uf.find fuel' i = some r := by
  induction fuel generalizing i r fuel' with
  | zero => simp [find] at h
  | succ fuel ih =>
    obtain ⟨n, rfl⟩ : ∃ n, fuel' = n + 1 := ⟨fuel' - 1, by omega⟩
    simp only [find] at h ⊢
    cases hi : uf.inner[i]? with
    | none => simp [hi] at h
    | some u =>
      simp only [hi] at h ⊢
      cases hu : u.varIndex with
      | none => simpa only [hu] using h
      | some j =>
        simp only [hu] at h ⊢
        by_cases hji : j = i
        · simpa only [hji, ne_eq, not_true_eq_false, if_false] using h
        · simp only [ne_eq, hji, not_false_eq_true, if_true] at h ⊢
          cases hf : uf.find fuel j with
          | none => simp [hf] at h
          | some p => rw [ih hf (by omega : fuel ≤ n)]; simpa only [hf] using h

/-- `find` answers whenever there is an answer. -/
theorem find_of_root {i : ℕ} {t : Typ} (h : Root uf i t) :
    ∃ fuel uf', uf.find fuel i = some (t, uf') := by
  induction h with
  | @here i t hi hself =>
    refine ⟨1, uf, ?_⟩
    cases ht : t.varIndex with
    | none => simp [find, hi, ht]
    | some j => simp [find, hi, ht, hself j ht]
  | @link i j t r hi hv hne _ ih =>
    obtain ⟨fuel, uf₁, hf⟩ := ih
    exact ⟨fuel + 1, uf₁.set i r, by simp [find, hi, hv, hne, hf]⟩

/-! ### Stores in which every mentioned variable exists -/

/-- Every variable mentioned in the store has been handed out by `fresh`. -/
def Scoped (uf : UnionFind) : Prop := ∀ i j, uf.Dep i j → j < uf.inner.length

/-- A type that mentions only variables of the store. -/
def InScope (uf : UnionFind) (t : Typ) : Prop := ∀ j ∈ t.vars, j < uf.inner.length

theorem Dep.lt {i j : ℕ} (h : uf.Dep i j) : i < uf.inner.length := by
  obtain ⟨t, ht, -⟩ := h
  exact (List.getElem?_eq_some_iff.mp ht).1

theorem Acyclic.wellFounded (ha : uf.Acyclic) : WellFounded (fun j i => uf.Dep i j) :=
  Graph.Acyclic.wellFounded ha (Set.finite_lt_nat uf.inner.length) fun _ _ h => h.lt

/-- Without cycles every variable has a root. -/
theorem Acyclic.root (ha : uf.Acyclic) (hs : uf.Scoped) {i : ℕ} (hi : i < uf.inner.length) :
    ∃ t, Root uf i t := by
  induction i using ha.wellFounded.induction with
  | _ i ih =>
    obtain ⟨t, ht⟩ : ∃ t, uf.inner[i]? = some t := ⟨_, List.getElem?_eq_getElem hi⟩
    cases hv : t.varIndex with
    | none => exact ⟨t, .here ht (by simp [hv])⟩
    | some j =>
      by_cases hji : j = i
      · exact ⟨t, .here ht (by simp [hv, hji])⟩
      · have hd : uf.Dep i j := ⟨t, ht, by rw [Typ.targets_link hv hji]; simp⟩
        obtain ⟨r, hr⟩ := ih j hd (hs i j hd)
        exact ⟨r, .link ht hv hji hr⟩

/-- `find` returns on every variable of a store without cycles. -/
theorem Acyclic.find (ha : uf.Acyclic) (hs : uf.Scoped) {i : ℕ} (hi : i < uf.inner.length) :
    ∃ fuel t uf', uf.find fuel i = some (t, uf') := by
  obtain ⟨t, ht⟩ := ha.root hs hi
  obtain ⟨fuel, uf', hf⟩ := find_of_root ht
  exact ⟨fuel, t, uf', hf⟩

theorem Root.dep_behind {i : ℕ} {r : Typ} (h : Root uf i r) {y : ℕ} (hy : y ∈ r.behind) :
    TransGen uf.Dep i y := by
  cases r with
  | recordVar k fs => exact h.dep_fields hy
  | var _ | intVar _ _ | floatVar _ => cases hy
  | _ => exact h.dep hy

/-- Induction over the variables of an acyclic store: a property holds of a variable when it
holds of those behind its root. -/
theorem Acyclic.root_induction (ha : uf.Acyclic) (hs : uf.Scoped) {P : ℕ → Prop}
    (step : ∀ i r, Root uf i r → (∀ y ∈ r.behind, P y) → P i) :
    ∀ i < uf.inner.length, P i := by
  intro i hi
  induction i using ha.wellFounded.transGen.induction with
  | _ i ih =>
    obtain ⟨r, hr⟩ := ha.root hs hi
    refine step i r hr fun y hy => ?_
    have hiy := hr.dep_behind hy
    obtain ⟨x, -, hxy⟩ := TransGen.tail'_iff.mp hiy
    exact ih y (transGen_swap.mpr hiy) (hs x y hxy)

/-! ### `set` and `fresh` on the binding graph -/

theorem length_set (i : ℕ) (t : Typ) : (uf.set i t).inner.length = uf.inner.length := by
  simp [set]

theorem dep_set {i : ℕ} {t : Typ} (hi : i < uf.inner.length) :
    (uf.set i t).Dep = Graph.replaceRow uf.Dep i {j | j ∈ t.targets i} := by
  funext x y
  refine propext ⟨fun ⟨u, hu, hy⟩ => ?_, fun h => ?_⟩
  · by_cases hxi : i = x
    · subst hxi
      rw [inner_set_self hi] at hu
      obtain rfl := Option.some.inj hu
      exact Or.inl ⟨rfl, hy⟩
    · rw [inner_set_ne hxi] at hu
      exact Or.inr ⟨Ne.symm hxi, u, hu, hy⟩
  · rcases h with ⟨rfl, hy⟩ | ⟨hxi, u, hu, hy⟩
    · exact ⟨t, inner_set_self hi, hy⟩
    · exact ⟨u, by rw [inner_set_ne (Ne.symm hxi)]; exact hu, hy⟩

theorem acyclic_set_iff (ha : uf.Acyclic) {i : ℕ} {t : Typ} (hi : i < uf.inner.length) :
    (uf.set i t).Acyclic ↔ ∀ y ∈ t.targets i, ¬ ReflTransGen uf.Dep y i := by
  rw [Acyclic, dep_set hi]
  exact Graph.acyclic_replaceRow_iff ha

theorem dep_fresh_iff (f : ℕ → Typ) {x y : ℕ} :
    (uf.fresh f).2.Dep x y ↔
      uf.Dep x y ∨ (x = uf.inner.length ∧ y ∈ (f uf.inner.length).targets x) := by
  constructor
  · rintro ⟨u, hu, hy⟩
    simp only [fresh, List.getElem?_append] at hu
    split at hu
    · exact Or.inl ⟨u, hu, hy⟩
    · rename_i hx
      have hlen : x = uf.inner.length := by
        by_contra hne
        have : x - uf.inner.length = x - uf.inner.length - 1 + 1 := by omega
        rw [this] at hu
        simp at hu
      subst hlen
      simp only [Nat.sub_self, List.getElem?_cons_zero, Option.some.injEq] at hu
      subst hu
      exact Or.inr ⟨rfl, hy⟩
  · rintro (⟨u, hu, hy⟩ | ⟨rfl, hy⟩)
    · refine ⟨u, ?_, hy⟩
      have hlt := (List.getElem?_eq_some_iff.mp hu).1
      simp only [fresh, List.getElem?_append, hlt, if_true]
      exact hu
    · exact ⟨_, by simp [fresh], hy⟩

/-- A fresh variable that mentions only older ones closes no cycle. -/
theorem Acyclic.fresh (ha : uf.Acyclic) (hs : uf.Scoped) (f : ℕ → Typ)
    (hf : ∀ j ∈ (f uf.inner.length).targets uf.inner.length, j < uf.inner.length) :
    (uf.fresh f).2.Acyclic ∧ (uf.fresh f).2.Scoped := by
  have hsc : (uf.fresh f).2.Scoped := by
    intro x y hxy
    have hlen : (uf.fresh f).2.inner.length = uf.inner.length + 1 := by simp [UnionFind.fresh]
    rw [hlen]
    rcases (dep_fresh_iff f).mp hxy with h | ⟨rfl, hy⟩
    · exact Nat.lt_succ_of_lt (hs x y h)
    · exact Nat.lt_succ_of_lt (hf y hy)
  refine ⟨fun x hx => ?_, hsc⟩
  -- nothing leads to the new variable, so a cycle lies in the old graph
  have hold : ∀ x y, x < uf.inner.length → (uf.fresh f).2.Dep x y → uf.Dep x y := by
    intro x y hlt hxy
    rcases (dep_fresh_iff f).mp hxy with h | ⟨rfl, -⟩
    · exact h
    · exact absurd hlt (lt_irrefl _)
  have hin : ∀ x y, (uf.fresh f).2.Dep x y → y < uf.inner.length := by
    intro x y hxy
    rcases (dep_fresh_iff f).mp hxy with h | ⟨rfl, hy⟩
    · exact hs x y h
    · exact hf y hy
  have hxlt : x < uf.inner.length := by
    obtain ⟨z, -, hz⟩ := TransGen.tail'_iff.mp hx
    exact hin z x hz
  have key : ∀ z, TransGen (uf.fresh f).2.Dep x z → TransGen uf.Dep x z := by
    intro z hz
    induction hz with
    | single h => exact .single (hold _ _ hxlt h)
    | tail hab hbc ih =>
      refine ih.tail (hold _ _ ?_ hbc)
      obtain ⟨w, -, hw⟩ := TransGen.tail'_iff.mp hab
      exact hin w _ hw
  exact ha x (key x hx)

/-! ### Resolving a type -/

/-- The type that a type resolves to: itself, or the root of its variable. -/
def Resolves (uf : UnionFind) (a r : Typ) : Prop :=
  (a.varIndex = none ∧ r = a) ∨ ∃ i, a.varIndex = some i ∧ Root uf i r

theorem Resolves.unique {a r r' : Typ} (h : uf.Resolves a r) (h' : uf.Resolves a r') :
    r = r' := by
  rcases h with ⟨hn, rfl⟩ | ⟨i, hi, hr⟩ <;> rcases h' with ⟨hn', rfl⟩ | ⟨j, hj, hr'⟩
  · rfl
  · rw [hn] at hj; cases hj
  · rw [hn'] at hi; cases hi
  · rw [hi] at hj
    obtain rfl := Option.some.inj hj
    exact hr.unique hr'

theorem Resolves.compressed {a r : Typ} (h : Compressed uf uf') :
    uf'.Resolves a r ↔ uf.Resolves a r := by
  simp only [Resolves, h.root]

theorem Resolves.unset {a r : Typ} (h : uf.Resolves a r) {k : ℕ} (hk : r.varIndex = some k) :
    uf.inner[k]? = some r := by
  rcases h with ⟨hn, rfl⟩ | ⟨i, -, hr⟩
  · rw [hn] at hk; cases hk
  · exact hr.slot hk

theorem Resolves.idem {a r : Typ} (h : uf.Resolves a r) : uf.Resolves r r := by
  cases hv : r.varIndex with
  | none => exact Or.inl ⟨hv, rfl⟩
  | some k => exact Or.inr ⟨k, hv, Root.of_unset (h.unset hv) hv⟩

theorem resolve_spec {fuel : ℕ} {a r : Typ} (h : uf.resolve fuel a = some (r, uf')) :
    uf.Resolves a r ∧ Compressed uf uf' := by
  simp only [resolve] at h
  cases hv : a.varIndex with
  | none =>
    simp only [hv, Option.some.injEq, Prod.mk.injEq] at h
    obtain ⟨rfl, rfl⟩ := h
    exact ⟨Or.inl ⟨hv, rfl⟩, .refl uf⟩
  | some i =>
    simp only [hv] at h
    obtain ⟨hr, hc⟩ := find_spec h
    exact ⟨Or.inr ⟨i, hv, hr⟩, hc⟩

theorem resolve_of_resolves {a r : Typ} (h : uf.Resolves a r) :
    ∃ fuel uf', uf.resolve fuel a = some (r, uf') := by
  rcases h with ⟨hn, rfl⟩ | ⟨i, hi, hr⟩
  · exact ⟨0, uf, by simp [resolve, hn]⟩
  · obtain ⟨fuel, uf', hf⟩ := find_of_root hr
    exact ⟨fuel, uf', by simp [resolve, hi, hf]⟩

theorem resolve_mono {fuel fuel' : ℕ} {a : Typ} {r : Typ × UnionFind}
    (h : uf.resolve fuel a = some r) (hle : fuel ≤ fuel') : uf.resolve fuel' a = some r := by
  simp only [resolve] at h ⊢
  cases hv : a.varIndex with
  | none => simpa only [hv] using h
  | some i => simp only [hv] at h ⊢; exact find_mono h hle

theorem Acyclic.resolves (ha : uf.Acyclic) (hs : uf.Scoped) {a : Typ} (hin : uf.InScope a) :
    ∃ r, uf.Resolves a r := by
  cases hv : a.varIndex with
  | none => exact ⟨a, Or.inl ⟨hv, rfl⟩⟩
  | some i =>
    obtain ⟨t, ht⟩ := ha.root hs (hin i (by rw [Typ.vars_of_varIndex hv]; simp))
    exact ⟨t, Or.inr ⟨i, hv, ht⟩⟩

/-! ### Roots after a write -/

section
variable {v : ℕ} {t e : Typ}

theorem Root.set_other (he : uf.inner[v]? = some e) (hv : e.varIndex = some v) {i : ℕ} {r : Typ}
    (h : Root uf i r) (hr : r.varIndex ≠ some v) : Root (uf.set v t) i r := by
  induction h with
  | @here i r hi hself =>
    have hne : v ≠ i := by
      rintro rfl
      rw [he] at hi
      obtain rfl := Option.some.inj hi
      exact hr hv
    exact .here (by rw [inner_set_ne hne]; exact hi) hself
  | @link i j u r hi hu hji _ ih =>
    have hne : v ≠ i := by
      rintro rfl
      rw [he] at hi
      obtain rfl := Option.some.inj hi
      rw [hv] at hu
      exact hji (Option.some.inj hu).symm
    exact .link (by rw [inner_set_ne hne]; exact hi) hu hji (ih hr)

theorem Root.set_self (he : uf.inner[v]? = some e) (hv : e.varIndex = some v) {i : ℕ} {r : Typ}
    (h : Root uf i r) (hr : r.varIndex = some v) {q : Typ} (hq : Root (uf.set v t) v q) :
    Root (uf.set v t) i q := by
  induction h with
  | here hi hself => rw [← hself v hr]; exact hq
  | @link i j u r hi hu hji _ ih =>
    have hne : v ≠ i := by
      rintro rfl
      rw [he] at hi
      obtain rfl := Option.some.inj hi
      rw [hv] at hu
      exact hji (Option.some.inj hu).symm
    exact .link (by rw [inner_set_ne hne]; exact hi) hu hji (ih hr)

theorem root_set_of_resolves (hlt : v < uf.inner.length) {q : Typ}
    (h : (uf.set v t).Resolves t q) : Root (uf.set v t) v q := by
  rcases h with ⟨hn, rfl⟩ | ⟨w, hw, hq⟩
  · exact .here (inner_set_self hlt) (by simp [hn])
  · by_cases hwv : w = v
    · exact hwv ▸ hq
    · exact .link (inner_set_self hlt) hw hwv hq

theorem Resolves.set_other (he : uf.inner[v]? = some e) (hv : e.varIndex = some v) {a r : Typ}
    (h : uf.Resolves a r) (hr : r.varIndex ≠ some v) : (uf.set v t).Resolves a r := by
  rcases h with h | ⟨i, hi, hroot⟩
  · exact Or.inl h
  · exact Or.inr ⟨i, hi, hroot.set_other he hv hr⟩

theorem Resolves.set_self (he : uf.inner[v]? = some e) (hv : e.varIndex = some v) {a r q : Typ}
    (h : uf.Resolves a r) (hr : r.varIndex = some v) (hq : (uf.set v t).Resolves t q) :
    (uf.set v t).Resolves a q := by
  have hlt : v < uf.inner.length := (List.getElem?_eq_some_iff.mp he).1
  rcases h with ⟨hn, rfl⟩ | ⟨i, hi, hroot⟩
  · rw [hn] at hr; cases hr
  · exact Or.inr ⟨i, hi, hroot.set_self he hv hr (root_set_of_resolves hlt hq)⟩

end

end UnionFind

end Roto.TypeChecker
