import RotoCompiler.Lib.Links
import RotoCompiler.TypeChecker.UnionFind

/-!
# Path compression (typechecker/unionfind.rs)

A store with compressed paths and one without them go through the same operations. All chains
of links end alike in them, and this stays so when a variable that is its own representative is
set.
-/

namespace Roto.TypeChecker.UnionFind
open Relation Links

variable {uf uf' : UnionFind}

def entry (uf : UnionFind) (i : ℕ) : Option Typ := uf.inner[i]?

/-- The entry of `i` is a variable, and not its own. -/
def Link (uf : UnionFind) : ℕ → ℕ → Prop := Links.Link Typ.varIndex uf.entry

def LinksAcyclic (uf : UnionFind) : Prop := Graph.Acyclic uf.Link

/-- `find_ref` answers. -/
def Finds (uf : UnionFind) (i : ℕ) (t : Typ) : Prop := ∃ fuel, uf.findRef fuel i = some t

/-! ### Runs -/

inductive Op where
  | fresh (f : ℕ → Typ)
  | find (index : ℕ)
  | set (index : ℕ) (t : Typ)

/-- An operation that returns. Only a variable that is its own representative is set, and no
operation closes a cycle of links. -/
inductive Step : UnionFind → Op → UnionFind → Prop where
  | fresh {uf : UnionFind} {f : ℕ → Typ} (h : (uf.fresh f).2.LinksAcyclic) :
      Step uf (.fresh f) (uf.fresh f).2
  | find {uf uf' : UnionFind} {fuel index : ℕ} {t : Typ} (h : uf.find fuel index = some (t, uf')) :
      Step uf (.find index) uf'
  | set {uf : UnionFind} {index : ℕ} {t : Typ} (hself : uf.Unset index)
      (h : (uf.set index t).LinksAcyclic) : Step uf (.set index t) (uf.set index t)

inductive Run : UnionFind → List Op → UnionFind → Prop where
  | nil (uf : UnionFind) : Run uf [] uf
  | cons {uf uf₁ uf₂ : UnionFind} {op : Op} {ops : List Op} (h : Step uf op uf₁)
      (hs : Run uf₁ ops uf₂) : Run uf (op :: ops) uf₂

/-- The operation without path compression. -/
def Op.plain (uf : UnionFind) : Op → UnionFind
  | .fresh f => (uf.fresh f).2
  | .find _ => uf
  | .set index t => uf.set index t

/-! ### Chains and roots -/

theorem entry_set (i : ℕ) (t : Typ) (hi : i < uf.inner.length) :
    (uf.set i t).entry = Function.update uf.entry i (some t) := by
  funext j
  unfold entry
  by_cases hij : j = i
  · rw [hij, Function.update_self, inner_set_self hi]
  · rw [Function.update_of_ne hij, inner_set_ne (Ne.symm hij)]

theorem entry_fresh (uf : UnionFind) (f : ℕ → Typ) :
    (uf.fresh f).2.entry = Function.update uf.entry uf.inner.length (some (f uf.inner.length)) := by
  funext j
  show (uf.inner ++ [f uf.inner.length])[j]? = _
  by_cases hj : j = uf.inner.length
  · rw [hj, Function.update_self, List.getElem?_concat_length]
  · rw [Function.update_of_ne hj]
    unfold entry
    by_cases hlt : j < uf.inner.length
    · rw [List.getElem?_append_left hlt]
    · rw [List.getElem?_eq_none (by simp; omega), List.getElem?_eq_none (by omega)]

theorem open_of_unset {v : ℕ} (h : uf.Unset v) : Open Typ.varIndex uf.entry v := by
  obtain ⟨t, ht, hv⟩ := h
  intro u hu
  obtain rfl := Option.some.inj (ht.symm.trans hu)
  exact hv

theorem open_length (uf : UnionFind) : Open Typ.varIndex uf.entry uf.inner.length := by
  intro t ht
  rw [entry, List.getElem?_eq_none le_rfl] at ht
  cases ht

/-- A root is the end of a chain: a type that is no variable, or the entry of an unset one. -/
theorem root_iff_end {i : ℕ} {t : Typ} : Root uf i t ↔ End Typ.varIndex uf.entry i (.inr t) ∨
    ∃ k, End Typ.varIndex uf.entry i (.inl k) ∧ uf.entry k = some t := by
  constructor
  · intro h
    induction h with
    | @here i t hi hself =>
      cases ht : t.varIndex with
      | none => exact .inl (.closed hi ht)
      | some j =>
        rw [hself j ht] at ht
        exact .inr ⟨i, .self hi ht, hi⟩
    | link hi ht hne _ ih =>
      rcases ih with ih | ⟨k, hk, hentry⟩
      · exact .inl (.link hi ht hne ih)
      · exact .inr ⟨k, .link hi ht hne hk, hentry⟩
  · rintro (h | ⟨k, h, hk⟩)
    · generalize ho : (Sum.inr t : ℕ ⊕ Typ) = o at h
      induction h with
      | absent => cases ho
      | self => cases ho
      | closed hi ht =>
        obtain rfl := Sum.inr.inj ho
        exact .here hi fun j hj => by rw [ht] at hj; cases hj
      | link hi ht hne _ ih => exact .link hi ht hne (ih ho)
    · generalize ho : (Sum.inl k : ℕ ⊕ Typ) = o at h
      induction h with
      | absent hi =>
        obtain rfl := Sum.inl.inj ho
        cases hi.symm.trans hk
      | self hi ht =>
        obtain rfl := Sum.inl.inj ho
        obtain rfl := Option.some.inj (hi.symm.trans hk)
        exact .of_unset hi ht
      | closed => cases ho
      | link hi ht hne _ ih => exact .link hi ht hne (ih ho)

/-- A root that is a variable is where the chain ends. -/
theorem Root.end_var {i k : ℕ} {t : Typ} (h : Root uf i t) (hk : t.varIndex = some k) :
    End Typ.varIndex uf.entry i (.inl k) := by
  rcases root_iff_end.mp h with hend | ⟨v, hend, hv⟩
  · cases hend.not_link.symm.trans hk
  · obtain rfl := Option.some.inj ((hend.isOpen t hv).symm.trans hk)
    exact hend

theorem Root.end_type {i : ℕ} {t : Typ} (h : Root uf i t) (ht : t.varIndex = none) :
    End Typ.varIndex uf.entry i (.inr t) := by
  rcases root_iff_end.mp h with hend | ⟨v, hend, hv⟩
  · exact hend
  · cases ht.symm.trans (hend.isOpen t hv)

theorem entry_none {i : ℕ} : uf.entry i = none ↔ uf.inner.length ≤ i := List.getElem?_eq_none_iff

/-- All chains end alike after the path has been compressed. -/
theorem Compressed.same (h : Compressed uf uf') : Same Typ.varIndex uf.entry uf'.entry := by
  have hnone : ∀ i, uf'.entry i = none ↔ uf.entry i = none := by
    intro i
    rw [entry_none, entry_none, h.length]
  have hopen : ∀ v, Open Typ.varIndex uf.entry v → uf'.entry v = uf.entry v := by
    intro v hv
    cases hentry : uf.entry v with
    | none => exact (hnone v).mpr hentry
    | some t => exact (h.unset v t (hv t hentry)).mpr hentry
  refine ⟨fun i o => ⟨fun hend => ?_, fun hend => ?_⟩, hopen⟩
  · induction hend with
    | absent hi => exact .absent ((hnone _).mp hi)
    | self hi ht => exact .self ((h.unset _ _ ht).mp hi) ht
    | @closed i t hi ht =>
      have hroot : Root uf' i t := .here hi fun j hj => by rw [ht] at hj; cases hj
      exact ((h.root i t).mp hroot).end_type ht
    | @link i j t o hi ht hne _ ih =>
      rcases h.entry i t hi with hsame | hroot
      · exact .link hsame ht hne ih
      · have hj := hroot.end_var ht
        obtain rfl := ih.unique hj.isOpen.end
        exact hj
  · induction hend with
    | absent hi => exact .absent ((hnone _).mpr hi)
    | self hi ht => exact .self ((h.unset _ _ ht).mpr hi) ht
    | @closed i t hi ht =>
      have hroot : Root uf i t := .here hi fun j hj => by rw [ht] at hj; cases hj
      exact ((h.root i t).mpr hroot).end_type ht
    | @link i j t o hi ht hne hj ih =>
      have hend : End Typ.varIndex uf.entry i o := .link hi ht hne hj
      obtain ⟨u, hu⟩ := Option.ne_none_iff_exists'.mp fun hnone' => by
        cases hi.symm.trans ((hnone i).mp hnone')
      rcases h.entry i u hu with hsame | hroot
      · obtain rfl := Option.some.inj (hi.symm.trans hsame)
        exact .link hu ht hne ih
      · have hroot' := (h.root i u).mpr hroot
        cases hv : u.varIndex with
        | none =>
          obtain rfl := hend.unique (hroot.end_type hv)
          exact hroot'.end_type hv
        | some k =>
          obtain rfl := hend.unique (hroot.end_var hv)
          exact hroot'.end_var hv

/-! ### Cycles of links -/

theorem Root.links {i j : ℕ} {t : Typ} (h : Root uf i t) (hj : t.varIndex = some j) (hne : j ≠ i) :
    TransGen uf.Link i j := by
  induction h with
  | here hi hself => exact absurd (hself j hj) hne
  | @link i k u t hi hu hki hk ih =>
    have hfirst : uf.Link i k := ⟨u, hi, hu, hki⟩
    by_cases hjk : j = k
    · rw [hjk]
      exact .single hfirst
    · exact .head hfirst (ih hj hjk)

theorem LinksAcyclic.compressed (ha : uf.LinksAcyclic) (h : Compressed uf uf') :
    uf'.LinksAcyclic := by
  refine Graph.Acyclic.of_le ha fun i j hij => ?_
  obtain ⟨t, ht, hj, hne⟩ := hij
  rcases h.entry i t ht with hsame | hroot
  · exact .single ⟨t, hsame, hj, hne⟩
  · exact hroot.links hj hne

theorem LinksAcyclic.wellFounded (ha : uf.LinksAcyclic) : WellFounded fun j i => uf.Link i j := by
  refine Graph.Acyclic.wellFounded ha (Set.finite_lt_nat uf.inner.length) fun i j hij => ?_
  obtain ⟨t, ht, -, -⟩ := hij
  exact (List.getElem?_eq_some_iff.mp ht).1

/-! ### Answers -/

theorem findRef_eq_find (uf : UnionFind) (fuel i : ℕ) :
    uf.findRef fuel i = (uf.find fuel i).map (·.1) := by
  induction fuel generalizing i with
  | zero => rfl
  | succ fuel ih =>
    unfold findRef find
    cases uf.inner[i]? with
    | none => rfl
    | some t =>
      cases ht : t.varIndex with
      | none => simp only [ht, Option.map_some]
      | some j =>
        simp only [ht, ih]
        split_ifs
        · cases uf.find fuel j <;> rfl
        · rfl

theorem finds_iff_root {i : ℕ} {t : Typ} : uf.Finds i t ↔ Root uf i t := by
  constructor
  · rintro ⟨fuel, h⟩
    rw [findRef_eq_find] at h
    obtain ⟨⟨u, uf'⟩, hfind, rfl⟩ := Option.map_eq_some_iff.mp h
    exact (find_spec hfind).1
  · intro h
    obtain ⟨fuel, uf', hfind⟩ := find_of_root h
    refine ⟨fuel, ?_⟩
    rw [findRef_eq_find, hfind]
    rfl

theorem finds_iff_of_same (h : Same Typ.varIndex uf.entry uf'.entry) (i : ℕ) (t : Typ) :
    uf'.Finds i t ↔ uf.Finds i t := by
  rw [finds_iff_root, finds_iff_root, root_iff_end, root_iff_end, h.ends]
  refine or_congr_right (exists_congr fun k => ?_)
  rw [h.ends]
  exact and_congr_right fun hk => by rw [h.entry k hk.isOpen]

/-- `find` and `find_ref` give the same answer, and after it `find_ref` answers as before. -/
def FindAgrees (uf : UnionFind) (i : ℕ) : Prop :=
  ∃ n t uf', (∀ fuel, n ≤ fuel → uf.find fuel i = some (t, uf') ∧ uf.findRef fuel i = some t) ∧
    ∀ j u, uf'.Finds j u ↔ uf.Finds j u

/-- Both follow links to an index that is out of bounds. -/
def OutOfBounds (uf : UnionFind) (i : ℕ) : Prop :=
  ∃ k, uf.inner.length ≤ k ∧ ReflTransGen uf.Link i k

theorem findAgrees_of_root {i : ℕ} {t : Typ} (h : Root uf i t) : uf.FindAgrees i := by
  obtain ⟨n, uf', hfind⟩ := find_of_root h
  refine ⟨n, t, uf', fun fuel hle => ?_, ?_⟩
  · have hfuel := find_mono hfind hle
    exact ⟨hfuel, by rw [findRef_eq_find, hfuel, Option.map_some]⟩
  · exact finds_iff_of_same (find_spec hfind).2.same

theorem LinksAcyclic.findAgrees (ha : uf.LinksAcyclic) (i : ℕ) :
    uf.FindAgrees i ∨ uf.OutOfBounds i := by
  obtain ⟨o, ho⟩ := exists_end ha.wellFounded i
  cases o with
  | inr t => exact .inl (findAgrees_of_root (root_iff_end.mpr (.inl ho)))
  | inl k =>
    cases hk : uf.entry k with
    | none => exact .inr ⟨k, entry_none.mp hk, ho.links⟩
    | some t => exact .inl (findAgrees_of_root (root_iff_end.mpr (.inr ⟨k, ho, hk⟩)))

/-! ### Two runs -/

/-- A store and one with compressed paths. -/
structure Twin (plain uf : UnionFind) : Prop where
  same : Same Typ.varIndex plain.entry uf.entry
  length : uf.inner.length = plain.inner.length

theorem Step.twin {plain uf₁ : UnionFind} {op : Op} (h : Step uf op uf₁) (ha : uf.LinksAcyclic)
    (ht : Twin plain uf) : Twin (op.plain plain) uf₁ ∧ uf₁.LinksAcyclic := by
  cases h with
  | @fresh f h =>
    refine ⟨⟨?_, ?_⟩, h⟩
    · have hopen := open_length plain
      unfold LinksAcyclic Link at h
      rw [entry_fresh, ht.length] at h
      show Same _ (plain.fresh f).2.entry (uf.fresh f).2.entry
      rw [entry_fresh, entry_fresh, ht.length]
      exact ht.same.update hopen h
    · show (uf.inner ++ [_]).length = (plain.inner ++ [_]).length
      simp only [List.length_append, List.length_singleton, ht.length]
  | find h =>
    obtain ⟨-, hcompressed⟩ := find_spec h
    exact ⟨⟨ht.same.trans hcompressed.same, hcompressed.length.trans ht.length⟩,
      ha.compressed hcompressed⟩
  | @set v t hself h =>
    have hlt : v < uf.inner.length := by
      obtain ⟨e, he, -⟩ := hself
      exact (List.getElem?_eq_some_iff.mp he).1
    have hopen := ht.same.isOpen.mp (open_of_unset hself)
    refine ⟨⟨?_, ?_⟩, h⟩
    · unfold LinksAcyclic Link at h
      rw [entry_set v t hlt] at h
      show Same _ (plain.set v t).entry (uf.set v t).entry
      rw [entry_set v t hlt, entry_set v t (ht.length ▸ hlt)]
      exact ht.same.update hopen h
    · show (uf.set v t).inner.length = (plain.set v t).inner.length
      rw [length_set, length_set, ht.length]

theorem Run.twin {plain uf₂ : UnionFind} {ops : List Op} (h : Run uf ops uf₂) (ha : uf.LinksAcyclic)
    (ht : Twin plain uf) : Twin (ops.foldl Op.plain plain) uf₂ ∧ uf₂.LinksAcyclic := by
  induction h generalizing plain with
  | nil uf => exact ⟨ht, ha⟩
  | cons hstep _ ih =>
    obtain ⟨ht₁, ha₁⟩ := hstep.twin ha ht
    exact ih ha₁ ht₁

/-- In every store of every run `find` ends with the answer of `find_ref` and changes no other
answer, and all answers are those of the run without path compression. -/
theorem path_compression {uf₀ uf : UnionFind} {ops : List Op} (h₀ : uf₀.LinksAcyclic)
    (hrun : Run uf₀ ops uf) :
    (∀ i, uf.FindAgrees i ∨ uf.OutOfBounds i) ∧
      ∀ i t, uf.Finds i t ↔ (ops.foldl Op.plain uf₀).Finds i t := by
  obtain ⟨htwin, ha⟩ := hrun.twin h₀ ⟨.refl uf₀.entry, rfl⟩
  exact ⟨ha.findAgrees, finds_iff_of_same htwin.same⟩

/-- A store in which links lead to later variables only. -/
theorem linksAcyclic_of_le
    (h : ∀ i ∈ List.range uf.inner.length, ∀ t ∈ uf.inner[i]?, ∀ j ∈ t.varIndex, i ≤ j) :
    uf.LinksAcyclic := by
  have hlt : ∀ i j, uf.Link i j → i < j := by
    rintro i j ⟨t, ht, hj, hne⟩
    have hi : i ∈ List.range uf.inner.length :=
      List.mem_range.mpr (List.getElem?_eq_some_iff.mp ht).1
    exact lt_of_le_of_ne (h i hi t ht j hj) hne.symm
  have hwalk : ∀ i j, TransGen uf.Link i j → i < j := by
    intro i j hij
    induction hij with
    | single hij => exact hlt _ _ hij
    | tail _ hij ih => exact ih.trans (hlt _ _ hij)
  exact fun i hi => lt_irrefl i (hwalk i i hi)

/-- Three variables in a chain, which `find` compresses before the last one is set. -/
def chainOps : List Op :=
  [.fresh .var, .fresh .var, .fresh .var, .set 0 (.var 1), .set 1 (.var 2), .find 0, .set 2 .unit]

theorem chain_find : (⟨[.var 1, .var 2, .var 2]⟩ : UnionFind).find 3 0 =
    some (.var 2, ⟨[.var 2, .var 2, .var 2]⟩) := rfl

theorem chain_run : Run empty chainOps ⟨[.var 2, .var 2, .unit]⟩ := by
  refine .cons (.fresh (linksAcyclic_of_le (by decide))) ?_
  refine .cons (.fresh (linksAcyclic_of_le (by decide))) ?_
  refine .cons (.fresh (linksAcyclic_of_le (by decide))) ?_
  refine .cons (.set ⟨.var 0, rfl, rfl⟩ (linksAcyclic_of_le (by decide))) ?_
  refine .cons (.set ⟨.var 1, rfl, rfl⟩ (linksAcyclic_of_le (by decide))) ?_
  refine .cons (.find chain_find) ?_
  exact .cons (.set ⟨.var 2, rfl, rfl⟩ (linksAcyclic_of_le (by decide))) (.nil _)

theorem chain_compression : (⟨[.var 2, .var 2, .unit]⟩ : UnionFind).Finds 0 .unit ↔
    (⟨[.var 1, .var 2, .unit]⟩ : UnionFind).Finds 0 .unit :=
  (path_compression (linksAcyclic_of_le (by decide)) chain_run).2 0 .unit

end Roto.TypeChecker.UnionFind
