import RotoCompiler.TypeChecker.Instance

/-!
# Solutions of a store

A solution gives every variable a type: unset variables one that their kind allows, bound
variables the instance of the type they are bound to. Below an instance lie its children
and, for a name of a record, the types of its fields: the order in which unification goes
down.
-/

namespace Roto.TypeChecker
open Relation UnionFind

/-! ### What lies below a type -/

theorem FieldsOf.unique {types : TypeMap} {g : Typ} {fs gs : Fields} (hf : FieldsOf types g fs)
    (hg : FieldsOf types g gs) : fs = gs := by
  cases hf with
  | recordVar v fs => cases hg; rfl
  | record fs => cases hg; rfl
  | name hd hf =>
    cases hg with
    | name hd' hf' =>
      rw [hd] at hd'
      obtain rfl := Option.some.inj hd'
      rw [hf] at hf'
      exact Option.some.inj (Option.some.inj hf')

section
variable {D : Declarations} {k : ℕ}

theorem wellFormed_canon {types : TypeMap} {t : Typ} (h : t.wellFormed types (some k) [] = true) :
    t.canon.wellFormed types (some k) [] = true := by
  induction t with
  | var _ | explicitVar _ | intVar _ _ | floatVar _ | unit | never => simpa [Typ.canon] using h
  | recordVar n fs ih =>
    obtain ⟨hn, hfs⟩ := Typ.wellFormed_recordVar.mp h
    rw [canon_recordVar, Typ.wellFormed_recordVar]
    refine ⟨hn, fun p hp => ?_⟩
    obtain ⟨f, hf, rfl⟩ := mem_sortFields.mp hp
    exact ih f hf (hfs f hf)
  | record fs ih =>
    rw [canon_record, Typ.wellFormed_record]
    intro p hp
    obtain ⟨f, hf, rfl⟩ := mem_sortFields.mp hp
    exact ih f hf (Typ.wellFormed_record.mp h f hf)
  | function ps r ihp ihr =>
    obtain ⟨hps, hr⟩ := Typ.wellFormed_function.mp h
    rw [canon_function, Typ.wellFormed_function]
    refine ⟨fun q hq => ?_, ihr hr⟩
    obtain ⟨p, hp, rfl⟩ := List.mem_map.mp hq
    exact ihp p hp (hps p hp)
  | name n as ih =>
    obtain ⟨d, hd, hlen, has⟩ := Typ.wellFormed_name.mp h
    rw [canon_name, Typ.wellFormed_name]
    refine ⟨d, hd, by simpa using hlen, fun b hb => ?_⟩
    obtain ⟨a, ha, rfl⟩ := List.mem_map.mp hb
    exact ih a ha (has a ha)

end

/-! ### Solutions -/

/-- The types that an unset variable can stand for. -/
inductive Allows (types : TypeMap) (σ : Assignment) : Typ → Prop where
  | var (n : ℕ) : Allows types σ (.var n)
  | intVar {n : ℕ} {s : MustBeSigned} {m : ResolvedName} {d : TypeDefinition}
      (hn : σ n = .name m []) (hd : types.resolveTypeName m = some d) (hint : d.isInt = true)
      (hs : s = .yes → d.isSignedInt = true) : Allows types σ (.intVar n s)
  | floatVar {n : ℕ} {m : ResolvedName} {d : TypeDefinition} (hn : σ n = .name m [])
      (hd : types.resolveTypeName m = some d) (hf : d.isFloat = true) :
      Allows types σ (.floatVar n)
  /-- a record or the name of one, with the fields in any order -/
  | recordVar {n : ℕ} {fs gs : Fields} (hg : FieldsOf types (σ n) gs)
      (hfs : sortFields Typ.canon gs = sortFields (Typ.inst σ) fs) :
      Allows types σ (.recordVar n fs)

/-- The assignment gives the variables types of their kinds and agrees with the bindings. -/
structure Solves (types : TypeMap) (uf : UnionFind) (σ : Assignment) : Prop where
  wellFormed : ∀ i, ∃ k, (σ i).wellFormed types (some k) [] = true
  unset : ∀ (i : ℕ) (e : Typ), uf.inner[i]? = some e → e.varIndex = some i → Allows types σ e
  bound : ∀ (i : ℕ) (e : Typ), uf.inner[i]? = some e → (σ i).canon = e.inst σ

section
variable {types : TypeMap} {uf uf' : UnionFind} {σ : Assignment}

theorem Solves.root (h : Solves types uf σ) {i : ℕ} {r : Typ} (hr : Root uf i r) :
    (σ i).canon = r.inst σ := by
  induction hr with
  | here hi _ => exact h.bound _ _ hi
  | link hi hv _ _ ih => rw [← ih, h.bound _ _ hi, inst_of_varIndex σ hv]

theorem Solves.resolves (h : Solves types uf σ) {a r : Typ} (hr : uf.Resolves a r) :
    a.inst σ = r.inst σ := by
  rcases hr with ⟨-, rfl⟩ | ⟨i, hi, hroot⟩
  · rfl
  · rw [inst_of_varIndex σ hi, h.root hroot]

/-- What a type resolves to, when it is a variable, is one that is unset. -/
theorem Solves.allows (h : Solves types uf σ) {a r : Typ} (hr : uf.Resolves a r) {i : ℕ}
    (hi : r.varIndex = some i) : Allows types σ r := h.unset i r (hr.unset hi) hi

theorem Solves.compressed (h : Solves types uf σ) (hc : uf.Compressed uf') :
    Solves types uf' σ where
  wellFormed := h.wellFormed
  unset i e hi he := h.unset i e ((hc.unset i e he).mp hi) he
  bound i e hi := by
    rcases hc.entry i e hi with hi | hr
    · exact h.bound i e hi
    · exact h.root hr

theorem Solves.set (h : Solves types uf σ) {v : ℕ} {t : Typ} (ht : (σ v).canon = t.inst σ)
    (hv : t.varIndex ≠ some v) : Solves types (uf.set v t) σ where
  wellFormed := h.wellFormed
  unset i e hi he := by
    by_cases hvi : v = i
    · subst hvi
      have hlt := (List.getElem?_eq_some_iff.mp hi).1
      rw [length_set] at hlt
      rw [inner_set_self hlt] at hi
      obtain rfl := Option.some.inj hi
      exact absurd he hv
    · rw [inner_set_ne hvi] at hi
      exact h.unset i e hi he
  bound i e hi := by
    by_cases hvi : v = i
    · subst hvi
      have hlt := (List.getElem?_eq_some_iff.mp hi).1
      rw [length_set] at hlt
      rw [inner_set_self hlt] at hi
      obtain rfl := Option.some.inj hi
      exact ht
    · rw [inner_set_ne hvi] at hi
      exact h.bound i e hi

/-- Instances are well formed. -/
theorem Solves.wellFormed_inst (h : Solves types uf σ) {n : ℕ} {t : Typ}
    (ht : t.wellFormed types (some n) [] = true) :
    ∃ k, (t.inst σ).wellFormed types (some k) [] = true := by
  -- one bound for all variables of the type
  have hlist : ∀ {α : Type} (l : List α) (f : α → Typ),
      (∀ a ∈ l, ∃ k, (f a).wellFormed types (some k) [] = true) →
      ∃ k, ∀ a ∈ l, (f a).wellFormed types (some k) [] = true := by
    intro α l f hl
    induction l with
    | nil => exact ⟨0, fun a ha => nomatch ha⟩
    | cons a l ih =>
      obtain ⟨k₁, hk₁⟩ := hl a (List.mem_cons_self ..)
      obtain ⟨k₂, hk₂⟩ := ih fun b hb => hl b (List.mem_cons_of_mem _ hb)
      have hmono : ∀ {k k' : ℕ}, k ≤ k' → ∀ {u : Typ}, u.wellFormed types (some k) [] = true →
          u.wellFormed types (some k') [] = true := fun {_ _} hle {_} hu =>
        Typ.wellFormed_mono (fun j hj => ⟨_, rfl, by
          obtain rfl := Option.some.inj hj
          exact hle⟩) (fun _ hp => hp) hu
      refine ⟨max k₁ k₂, fun b hb => ?_⟩
      rcases List.mem_cons.mp hb with rfl | hb
      · exact hmono (Nat.le_max_left ..) hk₁
      · exact hmono (Nat.le_max_right ..) (hk₂ b hb)
  have hvar : ∀ i, ∃ k, (σ i).canon.wellFormed types (some k) [] = true := fun i => by
    obtain ⟨k, hk⟩ := h.wellFormed i
    exact ⟨k, wellFormed_canon hk⟩
  induction t with
  | var i | intVar i _ | floatVar i | recordVar i _ _ => exact hvar i
  | explicitVar s => simp [Typ.wellFormed] at ht
  | unit | never => exact ⟨0, rfl⟩
  | record fs ih =>
    obtain ⟨k, hk⟩ := hlist fs (fun f => f.2.inst σ) fun f hf =>
      ih f hf (Typ.wellFormed_record.mp ht f hf)
    refine ⟨k, ?_⟩
    rw [inst_record, Typ.wellFormed_record]
    intro p hp
    obtain ⟨f, hf, rfl⟩ := mem_sortFields.mp hp
    exact hk f hf
  | function ps r ihp ihr =>
    obtain ⟨hps, hr⟩ := Typ.wellFormed_function.mp ht
    obtain ⟨k, hk⟩ := hlist (r :: ps) (Typ.inst σ) (List.forall_mem_cons.mpr
      ⟨ihr hr, fun p hp => ihp p hp (hps p hp)⟩)
    refine ⟨k, ?_⟩
    rw [inst_function, Typ.wellFormed_function]
    refine ⟨fun q hq => ?_, hk r (List.mem_cons_self ..)⟩
    obtain ⟨p, hp, rfl⟩ := List.mem_map.mp hq
    exact hk p (List.mem_cons_of_mem _ hp)
  | name m as ih =>
    obtain ⟨d, hd, hlen, has⟩ := Typ.wellFormed_name.mp ht
    obtain ⟨k, hk⟩ := hlist as (Typ.inst σ) fun a ha => ih a ha (has a ha)
    refine ⟨k, ?_⟩
    rw [inst_name, Typ.wellFormed_name]
    refine ⟨d, hd, by simpa using hlen, fun b hb => ?_⟩
    obtain ⟨a, ha, rfl⟩ := List.mem_map.mp hb
    exact hk a ha

end

/-! ### The fields of an instance -/

/-- The fields of a record type or of the name of one, sorted. -/
def FieldsAt (types : TypeMap) (g : Typ) (gs : Fields) : Prop :=
  ∃ fs, FieldsOf types g fs ∧ gs = sortFields Typ.canon fs

theorem FieldsAt.unique {types : TypeMap} {g : Typ} {fs gs : Fields} (hf : FieldsAt types g fs)
    (hg : FieldsAt types g gs) : fs = gs := by
  obtain ⟨fs', hf, rfl⟩ := hf
  obtain ⟨gs', hg, rfl⟩ := hg
  rw [hf.unique hg]

section
variable {D : Declarations} {σ : Assignment} {k : ℕ}

/-- The fields of a name at arguments with equal images. -/
theorem FieldsOf.name_image {F : Typ → Typ} (hF : Homomorphic F) {n : ResolvedName}
    {as bs : List Typ} {fs : Fields} (hf : FieldsOf D.types (.name n as) fs)
    (has : (Typ.name n as).wellFormed D.types (some k) [] = true)
    (hbs : (Typ.name n bs).wellFormed D.types (some k) [] = true)
    (h : as.map F = bs.map Typ.canon) :
    FieldsAt D.types (.name n bs) (sortFields F fs) := by
  cases hf with
  | @name _ d _ _ hd hf =>
    obtain ⟨d', hd', hlen, hwas⟩ := Typ.wellFormed_name.mp has
    obtain ⟨d'', hd'', hlen', hwbs⟩ := Typ.wellFormed_name.mp hbs
    rw [hd] at hd' hd''
    obtain rfl := Option.some.inj hd'
    obtain rfl := Option.some.inj hd''
    have hwf := D.wf hd
    cases d with
    | record tn fields =>
      have hl : tn.arguments.length = as.length := hlen
      have hl' : tn.arguments.length = bs.length := hlen'
      simp only [TypeDefinition.recordFields, hl, if_true, Option.some.injEq] at hf
      subst hf
      refine ⟨_, .name hd (by simp [TypeDefinition.recordFields, hl']; rfl), ?_⟩
      have hsubs := hwf.subs
      simp only [TypeDefinition.arguments] at hsubs
      rw [hsubs, hsubs,
        sortFields_map fun t => t.substituteMany (paramSubs (TypeDefinition.params _) as),
        sortFields_map fun t => t.substituteMany (paramSubs (TypeDefinition.params _) bs)]
      exact sortFields_congr fun f hf => image_substituteMany hF homomorphic_canon hwf.nodup
        (D.params_length hd hlen) h hwas hwbs
        (hwf.fields f.2 (List.mem_map.mpr ⟨f, hf, rfl⟩))
    | _ => simp [TypeDefinition.recordFields] at hf

theorem FieldsOf.canon {g : Typ} {fs : Fields} (hf : FieldsOf D.types g fs)
    (hg : g.wellFormed D.types (some k) [] = true) :
    FieldsAt D.types g.canon (sortFields Typ.canon fs) := by
  have hidem : sortFields Typ.canon (sortFields Typ.canon fs) = sortFields Typ.canon fs :=
    sortFields_idem fun f _ => canon_canon f.2
  cases hf with
  | recordVar v fs => exact ⟨_, by rw [canon_recordVar]; exact .recordVar _ _, hidem.symm⟩
  | record fs => exact ⟨_, by rw [canon_record]; exact .record _, hidem.symm⟩
  | @name n d as fs hd hf =>
    have hcan := wellFormed_canon hg
    rw [canon_name] at hcan ⊢
    refine FieldsOf.name_image homomorphic_canon (.name hd hf) hg hcan ?_
    rw [List.map_map]
    exact List.map_congr_left fun a _ => (canon_canon a).symm

/-- The fields of a record type, of the name of a record or of a record variable become
the fields of its instance. -/
theorem FieldsOf.inst {uf : UnionFind} (h : Solves D.types uf σ) {c : Typ} {fc : Fields}
    (hf : FieldsOf D.types c fc) (hc : c.wellFormed D.types (some k) [] = true)
    (hallow : ∀ i, c.varIndex = some i → Allows D.types σ c) :
    FieldsAt D.types (c.inst σ) (sortFields (Typ.inst σ) fc) := by
  cases hf with
  | recordVar v fs =>
    cases hallow v rfl with
    | recordVar hg hfs =>
      obtain ⟨j, hj⟩ := h.wellFormed v
      rw [Typ.inst, ← hfs]
      exact hg.canon hj
  | record fs =>
    refine ⟨_, by rw [inst_record]; exact .record _, ?_⟩
    exact (sortFields_idem fun f _ => canon_inst σ f.2).symm
  | @name n d as fs hd hf =>
    obtain ⟨j, hj⟩ := h.wellFormed_inst hc
    have hmono : ∀ {u : Typ} {i : ℕ}, i ≤ max k j → u.wellFormed D.types (some i) [] = true →
        u.wellFormed D.types (some (max k j)) [] = true := fun {_ _} hle hu =>
      Typ.wellFormed_mono (fun i hi => ⟨_, rfl, by
        obtain rfl := Option.some.inj hi
        exact hle⟩) (fun _ hp => hp) hu
    have hinst := hmono (Nat.le_max_right ..) hj
    rw [inst_name] at hinst ⊢
    refine FieldsOf.name_image (homomorphic_inst σ) (.name hd hf) (hmono (Nat.le_max_left ..) hc)
      hinst ?_
    rw [List.map_map]
    exact List.map_congr_left fun a _ => (canon_inst σ a).symm

end

end Roto.TypeChecker
