import RotoCompiler.TypeChecker.SameType

/-!
# Instances of types

An assignment gives every variable a type. The instance of a type has the variables
replaced and the fields of records sorted by name, so two types have the same instance
exactly when the assignment makes them the same type.
-/

namespace Roto.TypeChecker
open Relation

/-! ### Fields sorted by name -/

/-- The fields by name and without ids, each type replaced by its image. -/
def sortFields (F : Typ → Typ) : Fields → Fields
  | [] => []
  | f :: fs => insertField (⟨f.1.node, 0⟩, F f.2) (sortFields F fs)

section
variable {F G : Typ → Typ} {fs gs : Fields} {f g : Meta Identifier × Typ}

/-- The field that was inserted is the first one whose name is not smaller. -/
theorem insertField_inj (hn : f.1 = g.1) {fs gs : Fields}
    (h : insertField f fs = insertField g gs) : f = g ∧ fs = gs := by
  induction fs generalizing gs with
  | nil =>
    cases gs with
    | nil => simpa [insertField] using h
    | cons x gs =>
      have := congrArg List.length h
      simp only [insertField] at this
      split at this <;> simp [length_insertField] at this
  | cons y fs ih =>
    cases gs with
    | nil =>
      have := congrArg List.length h
      simp only [insertField] at this
      split at this <;> simp [length_insertField] at this
    | cons x gs =>
      simp only [insertField, hn] at h
      split at h <;> split at h <;> rename_i hy hx
      · obtain ⟨rfl, hrest⟩ := List.cons.inj h
        exact ⟨rfl, hrest⟩
      · obtain ⟨rfl, -⟩ := List.cons.inj h
        exact absurd (hn ▸ le_refl _) hx
      · obtain ⟨rfl, -⟩ := List.cons.inj h
        exact absurd (le_refl _) hy
      · obtain ⟨rfl, hrest⟩ := List.cons.inj h
        obtain ⟨hfg, rfl⟩ := ih hrest
        exact ⟨hfg, rfl⟩

/-- Fields of different names are inserted in any order. -/
theorem insertField_comm (hn : f.1.node ≠ g.1.node) :
    insertField f (insertField g gs) = insertField g (insertField f gs) := by
  induction gs with
  | nil =>
    rcases lt_or_gt_of_ne hn with h | h
    · simp [insertField, h.le, not_le.mpr h]
    · simp [insertField, h.le, not_le.mpr h]
  | cons x gs ih =>
    by_cases hf : f.1.node ≤ x.1.node <;> by_cases hg : g.1.node ≤ x.1.node
    · rcases lt_or_gt_of_ne hn with h | h
      · simp [insertField, hf, hg, h.le, not_le.mpr h]
      · simp [insertField, hf, hg, h.le, not_le.mpr h]
    · have hgf : ¬ g.1.node ≤ f.1.node := fun h => hg (h.trans hf)
      simp [insertField, hf, hg, hgf]
    · have hfg : ¬ f.1.node ≤ g.1.node := fun h => hf (h.trans hg)
      simp [insertField, hf, hg, hfg]
    · simp [insertField, hf, hg, ih]

theorem mem_sortFields {p : Meta Identifier × Typ} :
    p ∈ sortFields F fs ↔ ∃ f ∈ fs, p = (⟨f.1.node, 0⟩, F f.2) := by
  induction fs with
  | nil => simp [sortFields]
  | cons f fs ih => simp [sortFields, mem_insertField, ih]

theorem sortFields_map (k : Typ → Typ) :
    sortFields F (fs.map fun f => (f.1, k f.2)) = sortFields (fun t => F (k t)) fs := by
  induction fs with
  | nil => rfl
  | cons f fs ih => simp [sortFields, ih]

theorem sortFields_congr (h : ∀ f ∈ fs, F f.2 = G f.2) : sortFields F fs = sortFields G fs := by
  induction fs with
  | nil => rfl
  | cons f fs ih =>
    simp only [sortFields]
    rw [h f (List.mem_cons_self ..), ih fun x hx => h x (List.mem_cons_of_mem _ hx)]

theorem takeField_some {n : Identifier} {t : Typ} {rest : Fields}
    (h : takeField n gs = some (t, rest)) :
    sortFields G gs = insertField (⟨n, 0⟩, G t) (sortFields G rest) := by
  induction gs generalizing t rest with
  | nil => cases h
  | cons g gs ih =>
    simp only [takeField] at h
    split at h
    · rename_i hn
      obtain ⟨rfl, rfl⟩ := Prod.mk.inj (Option.some.inj h)
      simp [sortFields, hn]
    · rename_i hn
      cases ht : takeField n gs with
      | none => simp [ht] at h
      | some q =>
        obtain ⟨u, us⟩ := q
        simp only [ht, Option.map_some, Option.some.injEq, Prod.mk.injEq] at h
        obtain ⟨rfl, rfl⟩ := h
        simp only [sortFields]
        rw [ih ht, insertField_comm hn]

theorem takeField_none {n : Identifier} (h : takeField n gs = none) : ∀ g ∈ gs, g.1.node ≠ n := by
  induction gs with
  | nil => simp
  | cons g gs ih =>
    simp only [takeField] at h
    split at h
    · cases h
    · rename_i hn
      simp only [Option.map_eq_none_iff] at h
      exact List.forall_mem_cons.mpr ⟨hn, ih h⟩

/-- Fields that are the same when sorted are matched one by one. -/
theorem matchFields_of_sortFields (h : sortFields F fs = sortFields G gs) :
    (matchFields fs gs).2 = true ∧ ∀ p ∈ (matchFields fs gs).1, F p.1 = G p.2 := by
  induction fs generalizing gs with
  | nil => exact ⟨rfl, fun p hp => nomatch hp⟩
  | cons f fs ih =>
    obtain ⟨n, t⟩ := f
    cases ht : takeField n.node gs with
    | none =>
      -- the name occurs on the left, so it occurs on the right
      exfalso
      have hmem : ((⟨n.node, 0⟩, F t) : Meta Identifier × Typ) ∈ sortFields G gs := by
        rw [← h]
        exact mem_insertField.mpr (Or.inl rfl)
      obtain ⟨g, hg, heq⟩ := mem_sortFields.mp hmem
      simp only [Prod.mk.injEq, Meta.mk.injEq, and_true] at heq
      exact takeField_none ht g hg heq.1.symm
    | some q =>
      obtain ⟨u, rest⟩ := q
      rw [takeField_some ht, sortFields] at h
      obtain ⟨hhead, hrest⟩ := insertField_inj (by rfl) h
      obtain ⟨hall, hp⟩ := ih hrest
      simp only [matchFields, ht]
      refine ⟨hall, fun p hmem => ?_⟩
      rcases List.mem_cons.mp hmem with rfl | hmem
      · exact (Prod.mk.inj hhead).2
      · exact hp p hmem

/-- Sorted by name. -/
def SortedFields (fs : Fields) : Prop := fs.Pairwise fun f g => f.1.node ≤ g.1.node

theorem SortedFields.insertField (h : SortedFields gs) : SortedFields (insertField f gs) := by
  induction gs with
  | nil => simp [SortedFields, Roto.TypeChecker.insertField]
  | cons g gs ih =>
    obtain ⟨hg, hgs⟩ := List.pairwise_cons.mp h
    simp only [Roto.TypeChecker.insertField]
    split
    · rename_i hle
      refine List.pairwise_cons.mpr ⟨fun x hx => ?_, h⟩
      rcases List.mem_cons.mp hx with rfl | hx
      · exact hle
      · exact hle.trans (hg x hx)
    · rename_i hle
      refine List.pairwise_cons.mpr ⟨fun x hx => ?_, ih hgs⟩
      rcases mem_insertField.mp hx with rfl | hx
      · exact (not_le.mp hle).le
      · exact hg x hx

theorem sortedFields_sortFields : SortedFields (sortFields F fs) := by
  induction fs with
  | nil => simp [SortedFields, sortFields]
  | cons f fs ih => exact ih.insertField

/-- Sorting what is sorted changes nothing. -/
theorem sortFields_sorted (h : SortedFields gs) (hF : ∀ g ∈ gs, g.1.id = 0 ∧ F g.2 = g.2) :
    sortFields F gs = gs := by
  induction gs with
  | nil => rfl
  | cons g gs ih =>
    obtain ⟨hg, hgs⟩ := List.pairwise_cons.mp h
    obtain ⟨hid, hFg⟩ := hF g (List.mem_cons_self ..)
    have hself : ((⟨g.1.node, 0⟩, F g.2) : Meta Identifier × Typ) = g := by
      rw [hFg, ← hid]
    rw [sortFields, ih hgs fun x hx => hF x (List.mem_cons_of_mem _ hx), hself]
    cases gs with
    | nil => rfl
    | cons x gs => simp [insertField, hg x (List.mem_cons_self ..)]

theorem sortFields_idem (hF : ∀ f ∈ fs, G (F f.2) = F f.2) :
    sortFields G (sortFields F fs) = sortFields F fs := by
  refine sortFields_sorted sortedFields_sortFields fun p hp => ?_
  obtain ⟨f, hf, rfl⟩ := mem_sortFields.mp hp
  exact ⟨rfl, hF f hf⟩

end

/-! ### Instances -/

abbrev Assignment := ℕ → Typ

mutual
/-- The type under an assignment, with the fields of records sorted by name. -/
def Typ.inst (σ : Assignment) : Typ → Typ
  | .var n => (σ n).canon
  | .intVar n _ => (σ n).canon
  | .floatVar n => (σ n).canon
  | .recordVar n _ => (σ n).canon
  | .explicitVar s => .explicitVar s
  | .unit => .unit
  | .never => .never
  | .record fs => .record (Typ.instFields σ fs)
  | .function ps r => .function (Typ.instList σ ps) (Typ.inst σ r)
  | .name n as => .name n (Typ.instList σ as)

def Typ.instList (σ : Assignment) : List Typ → List Typ
  | [] => []
  | t :: ts => Typ.inst σ t :: Typ.instList σ ts

def Typ.instFields (σ : Assignment) : List (Meta Identifier × Typ) → List (Meta Identifier × Typ)
  | [] => []
  | (n, t) :: fs => insertField (⟨n.node, 0⟩, Typ.inst σ t) (Typ.instFields σ fs)
end

section
variable (σ : Assignment)

theorem canonFields_eq_sortFields (fs : Fields) :
    Typ.canonFields fs = sortFields Typ.canon fs := by
  induction fs with
  | nil => rfl
  | cons f fs ih => exact congrArg (insertField (⟨f.1.node, 0⟩, f.2.canon)) ih

@[simp] theorem canon_record (fs : Fields) :
    (Typ.record fs).canon = .record (sortFields Typ.canon fs) :=
  congrArg Typ.record (canonFields_eq_sortFields fs)

@[simp] theorem canon_recordVar (n : ℕ) (fs : Fields) :
    (Typ.recordVar n fs).canon = .recordVar n (sortFields Typ.canon fs) :=
  congrArg (Typ.recordVar n) (canonFields_eq_sortFields fs)

@[simp] theorem canon_name (n : ResolvedName) (as : List Typ) :
    (Typ.name n as).canon = .name n (as.map Typ.canon) :=
  congrArg (Typ.name n) (Typ.canonList_eq_map as)

@[simp] theorem canon_function (ps : List Typ) (r : Typ) :
    (Typ.function ps r).canon = .function (ps.map Typ.canon) r.canon :=
  congrArg (Typ.function · r.canon) (Typ.canonList_eq_map ps)

theorem instList_eq_map (ts : List Typ) : Typ.instList σ ts = ts.map (Typ.inst σ) := by
  induction ts with
  | nil => rfl
  | cons t ts ih => exact congrArg (t.inst σ :: ·) ih

@[simp] theorem inst_record (fs : Fields) :
    (Typ.record fs).inst σ = .record (sortFields (Typ.inst σ) fs) := by
  have hfields : Typ.instFields σ fs = sortFields (Typ.inst σ) fs := by
    induction fs with
    | nil => rfl
    | cons f fs ih => exact congrArg (insertField (⟨f.1.node, 0⟩, f.2.inst σ)) ih
  exact congrArg Typ.record hfields

@[simp] theorem inst_name (n : ResolvedName) (as : List Typ) :
    (Typ.name n as).inst σ = .name n (as.map (Typ.inst σ)) :=
  congrArg (Typ.name n) (instList_eq_map σ as)

@[simp] theorem inst_function (ps : List Typ) (r : Typ) :
    (Typ.function ps r).inst σ = .function (ps.map (Typ.inst σ)) (r.inst σ) :=
  congrArg (Typ.function · (r.inst σ)) (instList_eq_map σ ps)

theorem inst_of_varIndex {t : Typ} {i : ℕ} (h : t.varIndex = some i) :
    t.inst σ = (σ i).canon := by
  cases t <;> simp_all [Typ.varIndex, Typ.inst]

/-- What is sorted already stays as it is. -/
theorem canon_canon (t : Typ) : t.canon.canon = t.canon := by
  induction t with
  | var _ | explicitVar _ | intVar _ _ | floatVar _ | unit | never => simp [Typ.canon]
  | recordVar n fs ih => simp only [canon_recordVar, sortFields_idem ih]
  | record fs ih => simp only [canon_record, sortFields_idem ih]
  | function ps r ihp ihr =>
    simp only [canon_function, ihr, List.map_map]
    exact congrArg (Typ.function · _) (List.map_congr_left ihp)
  | name n as ih =>
    simp only [canon_name, List.map_map]
    exact congrArg _ (List.map_congr_left ih)

theorem canon_inst (t : Typ) : (t.inst σ).canon = t.inst σ := by
  induction t with
  | var _ | intVar _ _ | floatVar _ | recordVar _ _ _ => simp only [Typ.inst, canon_canon]
  | explicitVar _ | unit | never => simp [Typ.inst, Typ.canon]
  | record fs ih => simp only [inst_record, canon_record, sortFields_idem ih]
  | function ps r ihp ihr =>
    simp only [inst_function, canon_function, ihr, List.map_map]
    exact congrArg (Typ.function · _) (List.map_congr_left ihp)
  | name n as ih =>
    simp only [inst_name, canon_name, List.map_map]
    exact congrArg _ (List.map_congr_left ih)

end

/-- `canon` and `inst` go through the constructors of type expressions. -/
structure Homomorphic (F : Typ → Typ) : Prop where
  unit : F .unit = .unit
  never : F .never = .never
  record : ∀ fs, F (.record fs) = .record (sortFields F fs)
  name : ∀ n as, F (.name n as) = .name n (as.map F)

theorem homomorphic_canon : Homomorphic Typ.canon := ⟨rfl, rfl, canon_record, canon_name⟩

theorem homomorphic_inst (σ : Assignment) : Homomorphic (Typ.inst σ) :=
  ⟨rfl, rfl, inst_record σ, inst_name σ⟩

/-- At arguments with equal images, a type expression has equal images. -/
theorem image_substituteMany {F G : Typ → Typ} (hF : Homomorphic F) (hG : Homomorphic G)
    {types : TypeMap} {k : ℕ} {ps : List Identifier} (hnodup : ps.Nodup) {as bs : List Typ}
    (hlen : ps.length = as.length) (h : as.map F = bs.map G)
    (has : ∀ a ∈ as, a.wellFormed types (some k) [] = true)
    (hbs : ∀ b ∈ bs, b.wellFormed types (some k) [] = true)
    {t : Typ} (ht : t.wellFormed types none ps = true) :
    F (t.substituteMany (paramSubs ps as)) = G (t.substituteMany (paramSubs ps bs)) := by
  induction t with
  | var _ | intVar _ _ | floatVar _ | recordVar _ _ _ | function _ _ _ _ =>
    simp [Typ.wellFormed] at ht
  | unit => simp only [substituteMany_unit, hF.unit, hG.unit]
  | never => simp only [substituteMany_never, hF.never, hG.never]
  | explicitVar s =>
    simp only [Typ.wellFormed, decide_eq_true_eq] at ht
    obtain ⟨i, hi⟩ := List.mem_iff_getElem?.mp ht
    have hlen' : as.length = bs.length := by simpa using congrArg List.length h
    have hget := congrArg (fun l => l[i]?) h
    simp only [List.getElem?_map, substituteMany_explicitVar_at hnodup hi hlen has,
      substituteMany_explicitVar_at hnodup hi (hlen.trans hlen') hbs, Option.map_some] at hget
    exact Option.some.inj hget
  | record fs ih =>
    rw [Typ.wellFormed_record] at ht
    rw [substituteMany_record, substituteMany_record, hF.record, hG.record,
      sortFields_map fun t => t.substituteMany (paramSubs ps as),
      sortFields_map fun t => t.substituteMany (paramSubs ps bs)]
    exact congrArg _ (sortFields_congr fun f hf => ih f hf (ht f hf))
  | name n us ih =>
    obtain ⟨d, -, -, hus⟩ := Typ.wellFormed_name.mp ht
    rw [substituteMany_name, substituteMany_name, hF.name, hG.name, List.map_map, List.map_map]
    exact congrArg _ (List.map_congr_left fun u hu => ih u hu (hus u hu))

end Roto.TypeChecker
