import Mathlib.Data.String.Basic
import RotoCompiler.TypeChecker.UnifyRun

/-!
# Full resolution and sameness of types

`Expand uf a X`: with all variables resolved at every depth, `a` is `X`. Unset variables
are left as they are. Two types are the same when their full resolutions are equal up to
the order of record fields and the source ids of field names.
-/

namespace Roto.TypeChecker
open Relation

/-! ### Full resolution -/

/-- The type with other children, in the order of `children`. -/
def Typ.withChildren : Typ → List Typ → Typ
  | .recordVar n fs, ts => .recordVar n ((fs.map Prod.fst).zip ts)
  | .record fs, ts => .record ((fs.map Prod.fst).zip ts)
  | .function _ _, r :: ps => .function ps r
  | .name n _, ts => .name n ts
  | t, _ => t

/-- `X` is `a` with the variables resolved at every depth. -/
inductive Expand (uf : UnionFind) : Typ → Typ → Prop where
  | mk {a r : Typ} {ts : List Typ} (hr : uf.Resolves a r) (hlen : ts.length = r.children.length)
      (h : ∀ p ∈ r.children.zip ts, Expand uf p.1 p.2) : Expand uf a (r.withChildren ts)

variable {uf uf' : UnionFind}

theorem Expand.inv {a X : Typ} (h : Expand uf a X) :
    ∃ r ts, uf.Resolves a r ∧ ts.length = r.children.length ∧
      (∀ p ∈ r.children.zip ts, Expand uf p.1 p.2) ∧ X = r.withChildren ts := by
  obtain ⟨hr, hlen, hc⟩ := h
  exact ⟨_, _, hr, hlen, hc, rfl⟩

/-- A type and what it resolves to have the same full resolution. -/
theorem expand_congr {a r X : Typ} (h : uf.Resolves a r) : Expand uf a X ↔ Expand uf r X := by
  constructor
  · intro hx
    obtain ⟨r', ts, hr', hlen, hc, rfl⟩ := hx.inv
    obtain rfl := h.unique hr'
    exact .mk h.idem hlen hc
  · intro hx
    obtain ⟨r', ts, hr', hlen, hc, rfl⟩ := hx.inv
    obtain rfl := h.idem.unique hr'
    exact .mk h hlen hc

theorem Expand.compressed (hc : uf.Compressed uf') {a X : Typ} :
    Expand uf' a X ↔ Expand uf a X := by
  constructor
  · intro h
    induction h with
    | mk hr hlen _ ih => exact .mk ((UnionFind.Resolves.compressed hc).mp hr) hlen ih
  · intro h
    induction h with
    | mk hr hlen _ ih => exact .mk ((UnionFind.Resolves.compressed hc).mpr hr) hlen ih

theorem zip_eq_of_unique {α β : Type} {P : α → β → Prop} :
    ∀ {cs : List α} {ts us : List β}, ts.length = cs.length → us.length = cs.length →
      (∀ p ∈ cs.zip ts, ∀ y, P p.1 y → p.2 = y) → (∀ p ∈ cs.zip us, P p.1 p.2) → ts = us
  | [], [], [], _, _, _, _ => rfl
  | c :: cs, t :: ts, u :: us, ht, hu, h, hP => by
    have hhead : t = u := h (c, t) (by simp) u (hP (c, u) (by simp))
    have htail : ts = us := zip_eq_of_unique (by simpa using ht) (by simpa using hu)
      (fun p hp => h p (by simp [hp])) fun p hp => hP p (by simp [hp])
    rw [hhead, htail]

theorem Expand.unique {a X Y : Typ} (hx : Expand uf a X) (hy : Expand uf a Y) : X = Y := by
  induction hx generalizing Y with
  | mk hr hlen _ ih =>
    obtain ⟨r', us, hr', hlen', hc', rfl⟩ := hy.inv
    obtain rfl := hr.unique hr'
    rw [zip_eq_of_unique hlen hlen' (fun p hp y hy => ih p hp hy) hc']

/-- Lists of expansions exist when each member has one. -/
theorem exists_children {cs : List Typ} (h : ∀ c ∈ cs, ∃ X, Expand uf c X) :
    ∃ ts : List Typ, ts.length = cs.length ∧ ∀ p ∈ cs.zip ts, Expand uf p.1 p.2 := by
  induction cs with
  | nil => exact ⟨[], rfl, by simp⟩
  | cons c cs ih =>
    obtain ⟨X, hX⟩ := h c (List.mem_cons_self ..)
    obtain ⟨ts, hlen, hts⟩ := ih fun x hx => h x (List.mem_cons_of_mem _ hx)
    refine ⟨X :: ts, by simp [hlen], fun p hp => ?_⟩
    rcases List.mem_cons.mp hp with rfl | hp
    · exact hX
    · exact hts p hp

theorem exists_expand_of_children {a r : Typ} (hr : uf.Resolves a r)
    (h : ∀ c ∈ r.children, ∃ X, Expand uf c X) : ∃ X, Expand uf a X := by
  obtain ⟨ts, hlen, hts⟩ := exists_children h
  exact ⟨_, .mk hr hlen hts⟩

/-- A type expands when its variables do. -/
theorem exists_expand_of_vars {types : TypeMap} {k : ℕ} {t : Typ}
    (ht : t.wellFormed types (some k) [] = true)
    (hvars : ∀ i ∈ t.vars, ∃ X, Expand uf (.var i) X) : ∃ X, Expand uf t X := by
  have hvar : ∀ {t : Typ} {i : ℕ}, t.varIndex = some i → (∃ X, Expand uf (.var i) X) →
      ∃ X, Expand uf t X := by
    rintro t i hv ⟨X, hX⟩
    obtain ⟨r, ts, hr, hlen, hc, rfl⟩ := hX.inv
    refine ⟨_, .mk (Or.inr ⟨i, hv, ?_⟩) hlen hc⟩
    rcases hr with ⟨hn, -⟩ | ⟨j, hj, hr⟩
    · cases hn
    · obtain rfl := Option.some.inj hj
      exact hr
  induction t with
  | var n => exact hvars n (by simp [Typ.vars])
  | intVar n s => exact hvar rfl (hvars n (by simp [Typ.vars]))
  | floatVar n => exact hvar rfl (hvars n (by simp [Typ.vars]))
  | recordVar n fs _ => exact hvar rfl (hvars n (by simp [Typ.vars]))
  | explicitVar s => simp [Typ.wellFormed] at ht
  | unit | never =>
    exact exists_expand_of_children (Or.inl ⟨rfl, rfl⟩) fun c hc => by cases hc
  | function qs r ihq ihr =>
    obtain ⟨hq, hr⟩ := Typ.wellFormed_function.mp ht
    refine exists_expand_of_children (Or.inl ⟨rfl, rfl⟩) fun c hc => ?_
    rcases List.mem_cons.mp hc with rfl | hc
    · exact ihr hr fun i hi => hvars i (by simp [Typ.vars, hi])
    · exact ihq c hc (hq c hc) fun i hi => hvars i (by
        simp only [Typ.vars, List.mem_append, Typ.mem_varsList]
        exact Or.inl ⟨c, hc, hi⟩)
  | record fs ih =>
    rw [Typ.wellFormed_record] at ht
    refine exists_expand_of_children (Or.inl ⟨rfl, rfl⟩) fun c hc => ?_
    obtain ⟨f, hf, rfl⟩ := List.mem_map.mp hc
    exact ih f hf (ht f hf) fun i hi => hvars i (Typ.mem_varsFields.mpr ⟨f, hf, hi⟩)
  | name n as ih =>
    obtain ⟨d, -, -, ha⟩ := Typ.wellFormed_name.mp ht
    refine exists_expand_of_children (Or.inl ⟨rfl, rfl⟩) fun c hc => ?_
    exact ih c hc (ha c hc) fun i hi => hvars i (Typ.mem_varsList.mpr ⟨c, hc, hi⟩)

/-! ### Record types by field name -/

/-- Insert a field before the first one whose name is not smaller. -/
def insertField (f : Meta Identifier × Typ) : Fields → Fields
  | [] => [f]
  | g :: gs => if f.1.node ≤ g.1.node then f :: g :: gs else g :: insertField f gs

theorem length_insertField {f : Meta Identifier × Typ} {gs : Fields} : (insertField f gs).length = gs.length + 1 := by
  induction gs with
  | nil => rfl
  | cons g gs ih =>
    simp only [insertField]
    split <;> simp [ih]

theorem mem_insertField {f p : Meta Identifier × Typ} {gs : Fields} :
    p ∈ insertField f gs ↔ p = f ∨ p ∈ gs := by
  induction gs with
  | nil => simp [insertField]
  | cons g gs ih =>
    simp only [insertField]
    split
    · simp
    · simp only [List.mem_cons, ih]
      tauto

mutual
/-- The type with the fields of records sorted by name and without source ids. -/
def Typ.canon : Typ → Typ
  | .recordVar n fs => .recordVar n (Typ.canonFields fs)
  | .record fs => .record (Typ.canonFields fs)
  | .function ps r => .function (Typ.canonList ps) (Typ.canon r)
  | .name n as => .name n (Typ.canonList as)
  | .var n => .var n
  | .explicitVar s => .explicitVar s
  | .intVar n s => .intVar n s
  | .floatVar n => .floatVar n
  | .unit => .unit
  | .never => .never

def Typ.canonList : List Typ → List Typ
  | [] => []
  | t :: ts => Typ.canon t :: Typ.canonList ts

def Typ.canonFields : List (Meta Identifier × Typ) → List (Meta Identifier × Typ)
  | [] => []
  | (n, t) :: fs => insertField (⟨n.node, 0⟩, Typ.canon t) (Typ.canonFields fs)
end

theorem Typ.canonList_eq_map (ts : List Typ) : Typ.canonList ts = ts.map Typ.canon := by
  induction ts with
  | nil => rfl
  | cons t ts ih => simp [Typ.canonList, ih]

/-- After full resolution the two types are equal, records compared by field name. -/
def SameType (uf : UnionFind) (a b : Typ) : Prop :=
  ∃ X Y, Expand uf a X ∧ Expand uf b Y ∧ X.canon = Y.canon

/-- The full resolutions are equal as they stand. -/
def SameExpansion (uf : UnionFind) (a b : Typ) : Prop := ∃ X, Expand uf a X ∧ Expand uf b X

theorem SameExpansion.sameType {a b : Typ} (h : SameExpansion uf a b) : SameType uf a b := by
  obtain ⟨X, ha, hb⟩ := h
  exact ⟨X, X, ha, hb, rfl⟩

/-! ### Full resolution of the constructors -/

theorem forall₂_of_zip {α β : Type} {P : α → β → Prop} {cs : List α} {ts : List β}
    (hlen : ts.length = cs.length) (h : ∀ p ∈ cs.zip ts, P p.1 p.2) : List.Forall₂ P cs ts :=
  List.forall₂_iff_zip.mpr ⟨hlen.symm, fun {a b} hab => h (a, b) hab⟩

theorem Expand.of_children {a r : Typ} {ts : List Typ} (hr : uf.Resolves a r)
    (h : List.Forall₂ (Expand uf) r.children ts) : Expand uf a (r.withChildren ts) :=
  .mk hr h.length_eq.symm fun _ hp => (List.forall₂_iff_zip.mp h).2 hp

theorem Expand.children {r X : Typ} (hr : uf.Resolves r r) (h : Expand uf r X) :
    ∃ ts, List.Forall₂ (Expand uf) r.children ts ∧ X = r.withChildren ts := by
  obtain ⟨r', ts, hr', hlen, hc, rfl⟩ := h.inv
  obtain rfl := hr.unique hr'
  exact ⟨ts, forall₂_of_zip hlen hc, rfl⟩

theorem expand_name {n : ResolvedName} {as : List Typ} {X : Typ} :
    Expand uf (.name n as) X ↔ ∃ ts, List.Forall₂ (Expand uf) as ts ∧ X = .name n ts := by
  constructor
  · exact fun h => h.children (Or.inl ⟨rfl, rfl⟩)
  · rintro ⟨ts, hts, rfl⟩
    exact Expand.of_children (r := .name n as) (Or.inl ⟨rfl, rfl⟩) hts

theorem expand_function {ps : List Typ} {r X : Typ} :
    Expand uf (.function ps r) X ↔
      ∃ ts t, List.Forall₂ (Expand uf) ps ts ∧ Expand uf r t ∧ X = .function ts t := by
  constructor
  · intro h
    obtain ⟨us, hus, rfl⟩ := h.children (Or.inl ⟨rfl, rfl⟩)
    cases hus with
    | cons hr hps => exact ⟨_, _, hps, hr, rfl⟩
  · rintro ⟨ts, t, hts, ht, rfl⟩
    exact Expand.of_children (r := .function ps r) (Or.inl ⟨rfl, rfl⟩) (.cons ht hts)

theorem forall₂_sameExpansion {as bs : List Typ} (h : List.Forall₂ (SameExpansion uf) as bs) :
    ∃ ts, List.Forall₂ (Expand uf) as ts ∧ List.Forall₂ (Expand uf) bs ts := by
  induction h with
  | nil => exact ⟨[], .nil, .nil⟩
  | cons hab _ ih =>
    obtain ⟨X, ha, hb⟩ := hab
    obtain ⟨ts, has, hbs⟩ := ih
    exact ⟨X :: ts, .cons ha has, .cons hb hbs⟩

theorem forall₂_sameType {as bs ts us : List Typ} (ha : List.Forall₂ (Expand uf) as ts)
    (hb : List.Forall₂ (Expand uf) bs us) (h : Typ.canonList ts = Typ.canonList us) :
    List.Forall₂ (SameType uf) as bs := by
  induction ha generalizing bs us with
  | nil =>
    cases hb with
    | nil => exact .nil
    | cons _ _ => simp [Typ.canonList] at h
  | cons hat _ ih =>
    cases hb with
    | nil => simp [Typ.canonList] at h
    | cons hbu hbs =>
      simp only [Typ.canonList, List.cons.injEq] at h
      exact .cons ⟨_, _, hat, hbu, h.1⟩ (ih hbs h.2)

theorem SameExpansion.name {n : ResolvedName} {as bs : List Typ}
    (h : List.Forall₂ (SameExpansion uf) as bs) :
    SameExpansion uf (.name n as) (.name n bs) := by
  obtain ⟨ts, ha, hb⟩ := forall₂_sameExpansion h
  exact ⟨_, expand_name.mpr ⟨ts, ha, rfl⟩, expand_name.mpr ⟨ts, hb, rfl⟩⟩

theorem SameExpansion.function {ps qs : List Typ} {r s : Typ}
    (h : List.Forall₂ (SameExpansion uf) ps qs) (hr : SameExpansion uf r s) :
    SameExpansion uf (.function ps r) (.function qs s) := by
  obtain ⟨ts, hps, hqs⟩ := forall₂_sameExpansion h
  obtain ⟨X, hX, hY⟩ := hr
  exact ⟨_, expand_function.mpr ⟨ts, X, hps, hX, rfl⟩, expand_function.mpr ⟨ts, X, hqs, hY, rfl⟩⟩

theorem SameType.name_inv {n : ResolvedName} {as bs : List Typ}
    (h : SameType uf (.name n as) (.name n bs)) : List.Forall₂ (SameType uf) as bs := by
  obtain ⟨X, Y, hX, hY, hXY⟩ := h
  obtain ⟨ts, ha, rfl⟩ := expand_name.mp hX
  obtain ⟨us, hb, rfl⟩ := expand_name.mp hY
  simp only [Typ.canon, Typ.name.injEq, true_and] at hXY
  exact forall₂_sameType ha hb hXY

theorem SameType.function_inv {ps qs : List Typ} {r s : Typ}
    (h : SameType uf (.function ps r) (.function qs s)) :
    List.Forall₂ (SameType uf) ps qs ∧ SameType uf r s := by
  obtain ⟨X, Y, hX, hY, hXY⟩ := h
  obtain ⟨ts, t, ha, hr, rfl⟩ := expand_function.mp hX
  obtain ⟨us, u, hb, hs, rfl⟩ := expand_function.mp hY
  simp only [Typ.canon, Typ.function.injEq] at hXY
  exact ⟨forall₂_sameType ha hb hXY.1, _, _, hr, hs, hXY.2⟩

end Roto.TypeChecker
