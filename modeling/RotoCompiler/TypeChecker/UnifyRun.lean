import RotoCompiler.TypeChecker.Unify
import RotoCompiler.TypeChecker.TypeCycle

/-!
# Runs of the type checker's store (typechecker/mod.rs)

The operations that the checker performs on the store, in any order: fresh variables,
unification, lookups, and the mark that negation puts on an integer variable. The store
stays well formed throughout. It stays acyclic as long as no binding closes a cycle, and
nothing in `unify_inner` rules such a binding out: there is no occurs check.
-/

namespace Roto.TypeChecker
open Relation

/-! ### The arms of `unify_inner` -/

/-- The fields of a type that a record variable can be bound to. -/
inductive FieldsOf (types : TypeMap) : Typ → Fields → Prop where
  | recordVar (v : ℕ) (fs : Fields) : FieldsOf types (.recordVar v fs) fs
  | record (fs : Fields) : FieldsOf types (.record fs) fs
  | name {n : ResolvedName} {d : TypeDefinition} {as : List Typ} {fs : Fields}
      (hd : types.resolveTypeName n = some d) (hf : d.recordFields as = some (some fs)) :
      FieldsOf types (.name n as) fs

/-- What the arms do, up to the order of the two types. -/
inductive Arm (types : TypeMap) : Typ → Typ → Rule → Prop where
  | same (a : Typ) : Arm types a a (.done a)
  | neverLeft {b : Typ} (h : .never ≠ b) : Arm types .never b (.done b)
  | neverRight {a : Typ} (h : a ≠ .never) : Arm types a .never (.done a)
  | bindLeft {a b : Typ} {v : ℕ} (h : a ≠ b) (hb : b ≠ .never) (hv : a.varIndex = some v) :
      Arm types a b (.bind v b)
  | bindRight {a b : Typ} {v : ℕ} (h : a ≠ b) (ha : a ≠ .never) (hv : b.varIndex = some v) :
      Arm types a b (.bind v a)
  | fieldsLeft {v : ℕ} {fa fb : Fields} {b : Typ} (h : .recordVar v fa ≠ b)
      (hb : FieldsOf types b fb) : Arm types (.recordVar v fa) b (.fields fa fb v b)
  | fieldsRight {v : ℕ} {fa fb : Fields} :
      Arm types (.record fa) (.recordVar v fb) (.fields fa fb v (.record fa))
  | fieldsRightName {v : ℕ} {fa fb : Fields} {n : ResolvedName} {as : List Typ}
      (ha : FieldsOf types (.name n as) fa) :
      Arm types (.name n as) (.recordVar v fb) (.fields fb fa v (.name n as))
  | names {n : ResolvedName} {as bs : List Typ} (h : as ≠ bs) :
      Arm types (.name n as) (.name n bs) (.pairs (as.zip bs) (.name n bs))
  | functions {ps qs : List Typ} {r s : Typ} (h : Typ.function ps r ≠ .function qs s) :
      Arm types (.function ps r) (.function qs s)
        (.pairs (ps.zip qs ++ [(r, s)]) (.function qs s))
  | fail (a b : Typ) (h : a ≠ b) : Arm types a b .fail

/-- An integer or float variable against a name: it is bound to the name, or nothing is. -/
theorem unifyIntName_cases {types : TypeMap} {b : ℕ} {s : MustBeSigned} {n : ResolvedName}
    {as : List Typ} {r : Rule} (h : unifyIntName types b s n as = some r) :
    r = .bind b (.name n as) ∨ r = .fail := by
  simp only [unifyIntName] at h
  split at h
  · exact Or.inr (Option.some.inj h).symm
  · split at h
    · cases h
    · split at h <;> split at h <;> simp_all

theorem unifyFloatName_cases {types : TypeMap} {b : ℕ} {n : ResolvedName}
    {as : List Typ} {r : Rule} (h : unifyFloatName types b n as = some r) :
    r = .bind b (.name n as) ∨ r = .fail := by
  simp only [unifyFloatName] at h
  split at h
  · exact Or.inr (Option.some.inj h).symm
  · split at h
    · cases h
    · split at h <;> simp_all

theorem unifyRecordName_cases {types : TypeMap} {v : ℕ} {fs : Fields} {n : ResolvedName}
    {as : List Typ} {r : Rule} (h : unifyRecordName types v fs n as = some r) :
    r = .fail ∨ ∃ gs, FieldsOf types (.name n as) gs ∧ r = .fields fs gs v (.name n as) := by
  simp only [unifyRecordName] at h
  split at h
  · cases h
  · rename_i d hd
    split at h
    · cases h
    · exact Or.inl (Option.some.inj h).symm
    · rename_i gs hf
      exact Or.inr ⟨gs, .name hd hf, (Option.some.inj h).symm⟩

theorem arm_of_unifyArm {types : TypeMap} {a b : Typ} {r : Rule}
    (h : unifyArm types a b = some r) : Arm types a b r := by
  by_cases hab : a = b
  · subst hab
    simp only [unifyArm, if_true, Option.some.injEq] at h
    exact h ▸ .same a
  · simp only [unifyArm, hab, if_false] at h
    split at h
    · cases h
    · cases h
    · obtain rfl := Option.some.inj h
      exact .neverLeft hab
    · obtain rfl := Option.some.inj h
      exact .neverRight hab
    · -- two integer variables: the one that must be signed is kept
      obtain rfl := Option.some.inj h
      simp only [unifyIntvars]
      split
      · exact .bindRight hab (by simp) rfl
      · exact .bindLeft hab (by simp) rfl
    · rcases unifyIntName_cases h with rfl | rfl
      · exact .bindLeft hab (by simp) rfl
      · exact .fail _ _ hab
    · rcases unifyIntName_cases h with rfl | rfl
      · exact .bindRight hab (by simp) rfl
      · exact .fail _ _ hab
    · obtain rfl := Option.some.inj h
      exact .bindLeft hab (by simp) rfl
    · rcases unifyFloatName_cases h with rfl | rfl
      · exact .bindLeft hab (by simp) rfl
      · exact .fail _ _ hab
    · rcases unifyFloatName_cases h with rfl | rfl
      · exact .bindRight hab (by simp) rfl
      · exact .fail _ _ hab
    · obtain rfl := Option.some.inj h
      exact .bindLeft hab (by assumption) rfl
    · obtain rfl := Option.some.inj h
      exact .bindRight hab (by assumption) rfl
    · obtain rfl := Option.some.inj h
      exact .fieldsLeft hab (.recordVar _ _)
    · obtain rfl := Option.some.inj h
      exact .fieldsLeft hab (.record _)
    · obtain rfl := Option.some.inj h
      exact .fieldsRight
    · rcases unifyRecordName_cases h with rfl | ⟨gs, hgs, rfl⟩
      · exact .fail _ _ hab
      · exact .fieldsLeft hab hgs
    · rcases unifyRecordName_cases h with rfl | ⟨gs, hgs, rfl⟩
      · exact .fail _ _ hab
      · exact .fieldsRightName hgs
    · split at h
      · obtain rfl := Option.some.inj h
        exact .fail _ _ hab
      · rename_i hnm
        obtain rfl := not_not.mp hnm
        obtain rfl := Option.some.inj h
        exact .names fun has => hab (by rw [has])
    · obtain rfl := Option.some.inj h
      exact .functions hab
    · obtain rfl := Option.some.inj h
      exact .fail _ _ hab

/-! ### Well-formed stores -/

/-- A type that the checker can hold together with this store. -/
abbrev UnionFind.Known (uf : UnionFind) (types : TypeMap) (t : Typ) : Prop :=
  t.wellFormed types (some uf.inner.length) [] = true

def UnionFind.Valid (uf : UnionFind) (types : TypeMap) : Prop := ∀ t ∈ uf.inner, uf.Known types t

section
variable {types : TypeMap} {k : ℕ}

theorem Typ.vars_lt {ps : List Identifier} {t : Typ}
    (h : t.wellFormed types (some k) ps = true) : ∀ j ∈ t.vars, j < k := by
  induction t with
  | var n | intVar n _ | floatVar n =>
    intro j hj
    obtain rfl := List.mem_singleton.mp hj
    simpa [Typ.wellFormed] using h
  | explicitVar _ | unit | never => exact fun j hj => by cases hj
  | recordVar n fs _ =>
    intro j hj
    obtain rfl := List.mem_singleton.mp hj
    exact (Typ.wellFormed_recordVar.mp h).1
  | record fs ih =>
    intro j hj
    obtain ⟨f, hf, hj⟩ := Typ.mem_varsFields.mp hj
    exact ih f hf (Typ.wellFormed_record.mp h f hf) j hj
  | function qs r ihq ihr =>
    obtain ⟨hq, hr⟩ := Typ.wellFormed_function.mp h
    intro j hj
    rcases List.mem_append.mp hj with hj | hj
    · obtain ⟨q, hm, hj⟩ := Typ.mem_varsList.mp hj
      exact ihq q hm (hq q hm) j hj
    · exact ihr hr j hj
  | name n as ih =>
    obtain ⟨d, -, -, ha⟩ := Typ.wellFormed_name.mp h
    intro j hj
    obtain ⟨a, hm, hj⟩ := Typ.mem_varsList.mp hj
    exact ih a hm (ha a hm) j hj

theorem Typ.targets_lt {ps : List Identifier} {t : Typ} {i : ℕ}
    (h : t.wellFormed types (some k) ps = true) : ∀ j ∈ t.targets i, j < k := by
  intro j hj
  rcases Typ.targets_subset hj with hvars | ⟨fs, rfl, hfields⟩
  · exact Typ.vars_lt h j hvars
  · obtain ⟨f, hf, hjf⟩ := Typ.mem_varsFields.mp hfields
    exact Typ.vars_lt ((Typ.wellFormed_recordVar.mp h).2 f hf) j hjf

end

namespace UnionFind

variable {types : TypeMap} {uf uf' : UnionFind}

theorem Known.inScope {t : Typ} (h : uf.Known types t) : uf.InScope t := Typ.vars_lt h

theorem Valid.entry (hv : uf.Valid types) {i : ℕ} {t : Typ} (h : uf.inner[i]? = some t) :
    uf.Known types t := hv t (List.mem_of_getElem? h)

theorem Valid.scoped (hv : uf.Valid types) : uf.Scoped := by
  rintro i j ⟨t, ht, hj⟩
  exact Typ.targets_lt (hv.entry ht) j hj

theorem Valid.root (hv : uf.Valid types) {i : ℕ} {t : Typ} (h : Root uf i t) :
    uf.Known types t := by
  induction h with
  | here hi _ => exact hv.entry hi
  | link _ _ _ _ ih => exact ih

theorem Valid.resolves (hv : uf.Valid types) {a r : Typ} (ha : uf.Known types a)
    (h : uf.Resolves a r) : uf.Known types r := by
  rcases h with ⟨-, rfl⟩ | ⟨i, -, hr⟩
  · exact ha
  · exact hv.root hr

theorem Compressed.known (hc : uf.Compressed uf') {t : Typ} :
    uf'.Known types t ↔ uf.Known types t := by
  simp only [Known, hc.length]

theorem Compressed.valid (hc : uf.Compressed uf') (hv : uf.Valid types) : uf'.Valid types := by
  intro t ht
  obtain ⟨i, hi⟩ := List.mem_iff_getElem?.mp ht
  rw [hc.known]
  rcases hc.entry i t hi with h | h
  · exact hv.entry h
  · exact hv.root h

theorem Valid.set (hv : uf.Valid types) {i : ℕ} {t : Typ} (ht : uf.Known types t) :
    (uf.set i t).Valid types := by
  intro u hu
  simp only [Known, length_set]
  rcases List.mem_or_eq_of_mem_set hu with hu | rfl
  · exact hv u hu
  · exact ht

theorem Known.mono {t : Typ} (h : uf.Known types t)
    (hle : uf.inner.length ≤ uf'.inner.length) : uf'.Known types t :=
  Typ.wellFormed_mono (fun k hk => ⟨uf'.inner.length, rfl, by
    obtain rfl := Option.some.inj hk
    exact hle⟩) (fun _ hp => hp) h

theorem Valid.fresh (hv : uf.Valid types) {f : ℕ → Typ}
    (hf : (f uf.inner.length).wellFormed types (some (uf.inner.length + 1)) [] = true) :
    (uf.fresh f).2.Valid types := by
  have hlen : (uf.fresh f).2.inner.length = uf.inner.length + 1 := by simp [UnionFind.fresh]
  intro t ht
  rcases List.mem_append.mp ht with ht | ht
  · exact (hv t ht).mono (by omega)
  · obtain rfl := List.mem_singleton.mp ht
    rw [Known, hlen]
    exact hf

end UnionFind

/-! ### The jobs of a run stay well formed -/

def Job.Known (types : TypeMap) (k : ℕ) : Job → Prop
  | .unify _ a b =>
    a.wellFormed types (some k) [] = true ∧ b.wellFormed types (some k) [] = true
  | .bind v t => v < k ∧ t.wellFormed types (some k) [] = true
  | .fail _ _ => True

theorem mem_of_takeField {name : Identifier} {fs rest : Fields} {t : Typ}
    (h : takeField name fs = some (t, rest)) :
    (∃ f ∈ fs, f.1.node = name ∧ f.2 = t) ∧ ∀ g ∈ rest, g ∈ fs := by
  induction fs generalizing rest with
  | nil => cases h
  | cons f fs ih =>
    obtain ⟨n, u⟩ := f
    simp only [takeField] at h
    split at h
    · rename_i hn
      obtain ⟨rfl, rfl⟩ := Prod.mk.inj (Option.some.inj h)
      exact ⟨⟨(n, u), List.mem_cons_self .., hn, rfl⟩, fun g hg => List.mem_cons_of_mem _ hg⟩
    · obtain ⟨⟨w, rest'⟩, hw, heq⟩ := Option.map_eq_some_iff.mp h
      obtain ⟨rfl, rfl⟩ := Prod.mk.inj heq
      obtain ⟨⟨f, hf, hn, ht⟩, hsub⟩ := ih hw
      refine ⟨⟨f, List.mem_cons_of_mem _ hf, hn, ht⟩, fun g hg => ?_⟩
      rcases List.mem_cons.mp hg with rfl | hg
      · exact List.mem_cons_self ..
      · exact List.mem_cons_of_mem _ (hsub g hg)

theorem mem_of_matchFields {as bs : Fields} {p : Typ × Typ} (h : p ∈ (matchFields as bs).1) :
    (∃ f ∈ as, f.2 = p.1) ∧ ∃ g ∈ bs, g.2 = p.2 := by
  induction as generalizing bs with
  | nil => cases h
  | cons f as ih =>
    obtain ⟨n, t⟩ := f
    simp only [matchFields] at h
    cases ht : takeField n.node bs with
    | none => simp [ht] at h
    | some q =>
      obtain ⟨u, rest⟩ := q
      simp only [ht] at h
      obtain ⟨⟨g, hg, -, hgu⟩, hsub⟩ := mem_of_takeField ht
      rcases List.mem_cons.mp h with rfl | h
      · exact ⟨⟨(n, t), List.mem_cons_self .., rfl⟩, g, hg, hgu⟩
      · obtain ⟨⟨f, hf, hfp⟩, g', hg', hgp⟩ := ih h
        exact ⟨⟨f, List.mem_cons_of_mem _ hf, hfp⟩, g', hsub g' hg', hgp⟩

section
variable (D : Declarations) {k : ℕ}

theorem FieldsOf.wellFormed {b : Typ} {fs : Fields} (h : FieldsOf D.types b fs)
    (hb : b.wellFormed D.types (some k) [] = true) :
    ∀ f ∈ fs, f.2.wellFormed D.types (some k) [] = true := by
  cases h with
  | recordVar v fs => exact (Typ.wellFormed_recordVar.mp hb).2
  | record fs => exact Typ.wellFormed_record.mp hb
  | @name n d as fs hd hf =>
    obtain ⟨d', hd', hlen, has⟩ := Typ.wellFormed_name.mp hb
    rw [hd] at hd'
    obtain rfl := Option.some.inj hd'
    cases d with
    | record tn fields =>
      have hl : tn.arguments.length = as.length := hlen
      simp only [TypeDefinition.recordFields, hl, if_true, Option.some.injEq] at hf
      subst hf
      intro f hmem
      obtain ⟨g, hg, rfl⟩ := List.mem_map.mp hmem
      have hsubs := (D.wf hd).subs as
      simp only [TypeDefinition.arguments] at hsubs
      simp only [hsubs]
      exact wellFormed_substituteMany ((D.wf hd).fields g.2 (List.mem_map.mpr ⟨g, hg, rfl⟩))
        (D.params_length hd hlen) has
    | _ => simp [TypeDefinition.recordFields] at hf

theorem Typ.varIndex_lt {types : TypeMap} {ps : List Identifier} {t : Typ} {v : ℕ}
    (h : t.varIndex = some v) (ht : t.wellFormed types (some k) ps = true) : v < k :=
  Typ.vars_lt ht v (by rw [Typ.vars_of_varIndex h]; simp)

theorem Typ.wellFormed_children {types : TypeMap} {k : ℕ} {t p : Typ}
    (h : t.wellFormed types (some k) [] = true) (hp : p ∈ t.children) :
    p.wellFormed types (some k) [] = true := by
  cases t with
  | var _ | explicitVar _ | intVar _ _ | floatVar _ | unit | never => cases hp
  | recordVar n fs =>
    obtain ⟨f, hf, rfl⟩ := List.mem_map.mp hp
    exact (Typ.wellFormed_recordVar.mp h).2 f hf
  | record fs =>
    obtain ⟨f, hf, rfl⟩ := List.mem_map.mp hp
    exact Typ.wellFormed_record.mp h f hf
  | function ps r =>
    obtain ⟨hps, hr⟩ := Typ.wellFormed_function.mp h
    rcases List.mem_cons.mp hp with rfl | hp
    · exact hr
    · exact hps p hp
  | name n as =>
    obtain ⟨-, -, -, has⟩ := Typ.wellFormed_name.mp h
    exact has p hp

/-- The jobs of an arm on well-formed types. -/
theorem Arm.known {a b : Typ} {r : Rule} (h : Arm D.types a b r)
    (ha : a.wellFormed D.types (some k) [] = true)
    (hb : b.wellFormed D.types (some k) [] = true) (e : Bool) :
    ∀ j ∈ r.jobs e a b, j.Known D.types k := by
  have hfields : ∀ {fa fb : Fields} {v : ℕ} {t : Typ},
      (∀ f ∈ fa, f.2.wellFormed D.types (some k) [] = true) →
      (∀ f ∈ fb, f.2.wellFormed D.types (some k) [] = true) →
      v < k → t.wellFormed D.types (some k) [] = true →
      ∀ j ∈ (Rule.fields fa fb v t).jobs e a b, j.Known D.types k := by
    intro fa fb v t hfa hfb hv ht j hj
    simp only [Rule.jobs] at hj
    split at hj
    · obtain rfl := List.mem_singleton.mp hj
      trivial
    · rcases List.mem_append.mp hj with hj | hj
      · obtain ⟨p, hp, rfl⟩ := List.mem_map.mp hj
        obtain ⟨⟨f, hf, hfp⟩, g, hg, hgp⟩ := mem_of_matchFields hp
        exact ⟨hfp ▸ hfa f hf, hgp ▸ hfb g hg⟩
      · obtain rfl := List.mem_singleton.mp hj
        cases (matchFields fa fb).2 with
        | true => exact ⟨hv, ht⟩
        | false => trivial
  cases h with
  | same | neverLeft _ | neverRight _ => exact fun j hj => by cases hj
  | bindLeft _ _ hv =>
    intro j hj
    obtain rfl := List.mem_singleton.mp hj
    exact ⟨Typ.varIndex_lt hv ha, hb⟩
  | bindRight _ _ hv =>
    intro j hj
    obtain rfl := List.mem_singleton.mp hj
    exact ⟨Typ.varIndex_lt hv hb, ha⟩
  | fieldsLeft _ hf =>
    obtain ⟨hv, hfa⟩ := Typ.wellFormed_recordVar.mp ha
    exact hfields hfa (hf.wellFormed D hb) hv hb
  | fieldsRight =>
    obtain ⟨hv, hfb⟩ := Typ.wellFormed_recordVar.mp hb
    exact hfields (Typ.wellFormed_record.mp ha) hfb hv ha
  | fieldsRightName hf =>
    obtain ⟨hv, hfb⟩ := Typ.wellFormed_recordVar.mp hb
    exact hfields hfb (hf.wellFormed D ha) hv ha
  | names _ =>
    obtain ⟨-, -, -, has⟩ := Typ.wellFormed_name.mp ha
    obtain ⟨-, -, -, hbs⟩ := Typ.wellFormed_name.mp hb
    intro j hj
    obtain ⟨p, hp, rfl⟩ := List.mem_map.mp hj
    have hz := List.of_mem_zip hp
    exact ⟨has _ hz.1, hbs _ hz.2⟩
  | functions _ =>
    obtain ⟨has, har⟩ := Typ.wellFormed_function.mp ha
    obtain ⟨hbs, hbr⟩ := Typ.wellFormed_function.mp hb
    intro j hj
    obtain ⟨p, hp, rfl⟩ := List.mem_map.mp hj
    rcases List.mem_append.mp hp with hp | hp
    · have hz := List.of_mem_zip hp
      exact ⟨has _ hz.1, hbs _ hz.2⟩
    · obtain rfl := List.mem_singleton.mp hp
      exact ⟨har, hbr⟩
  | fail =>
    intro j hj
    obtain rfl := List.mem_singleton.mp hj
    trivial

end

/-- What holds between two jobs of a run: the store is well formed and the jobs know only
its variables. -/
structure RunInv (D : Declarations) (uf : UnionFind) (js : List Job) : Prop where
  valid : uf.Valid D.types
  known : ∀ j ∈ js, j.Known D.types uf.inner.length

section
variable {D : Declarations} {uf uf₁ uf₂ : UnionFind} {js : List Job}

theorem RunInv.bind {v : ℕ} {t : Typ} (h : RunInv D uf (.bind v t :: js)) :
    v < uf.inner.length ∧ uf.Known D.types t ∧ RunInv D (uf.set v t) js := by
  obtain ⟨hv, ht⟩ := h.known _ (List.mem_cons_self ..)
  refine ⟨hv, ht, h.valid.set ht, fun j hj => ?_⟩
  rw [UnionFind.length_set]
  exact h.known j (List.mem_cons_of_mem _ hj)

theorem RunInv.unify {n m : ℕ} {e : Bool} {a b a' b' : Typ} {r : Rule}
    (h : RunInv D uf (.unify e a b :: js)) (ha : uf.resolve n a = some (a', uf₁))
    (hb : uf₁.resolve m b = some (b', uf₂)) (hr : unifyArm D.types a' b' = some r) :
    uf.Compressed uf₂ ∧ uf.Resolves a a' ∧ uf.Resolves b b' ∧ Arm D.types a' b' r ∧
      RunInv D uf₂ (r.jobs e a' b' ++ js) := by
  obtain ⟨hra, hc₁⟩ := UnionFind.resolve_spec ha
  obtain ⟨hrb, hc₂⟩ := UnionFind.resolve_spec hb
  have hrb' := (UnionFind.Resolves.compressed hc₁).mp hrb
  obtain ⟨hka, hkb⟩ := h.known _ (List.mem_cons_self ..)
  have hc := hc₁.trans hc₂
  have harm := arm_of_unifyArm hr
  refine ⟨hc, hra, hrb', harm, hc.valid h.valid, fun j hj => ?_⟩
  rw [hc.length]
  rcases List.mem_append.mp hj with hj | hj
  · exact harm.known D (h.valid.resolves hka hra) (h.valid.resolves hkb hrb') e j hj
  · exact h.known j (List.mem_cons_of_mem _ hj)

end

end Roto.TypeChecker
