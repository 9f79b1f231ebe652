import RotoCompiler.TypeChecker.Solution
import RotoCompiler.TypeChecker.UnifyAcyclic

/-!
# What unification does not miss

Two types that some solution of the store makes the same are unified, and no solution is
lost, unless the run comes to two record types that are not literally equal: there is no
arm for them, although the arm for equal types compares the source ids of field names.
-/

namespace Roto.TypeChecker
open Relation UnionFind

/-! ### Arms on types with one instance -/

section
variable {D : Declarations} {σ : Assignment} {k : ℕ}

/-- An integer variable stands for the name of an integer type. -/
theorem Allows.int {types : TypeMap} {n : ℕ} {s : MustBeSigned}
    (h : Allows types σ (.intVar n s)) :
    ∃ m d, (σ n).canon = .name m [] ∧ types.resolveTypeName m = some d ∧ d.isInt = true := by
  cases h with
  | intVar hn hd hint _ => exact ⟨_, _, by rw [hn]; simp, hd, hint⟩

theorem Allows.float {types : TypeMap} {n : ℕ} (h : Allows types σ (.floatVar n)) :
    ∃ m d, (σ n).canon = .name m [] ∧ types.resolveTypeName m = some d ∧ d.isFloat = true := by
  cases h with
  | floatVar hn hd hf => exact ⟨_, _, by rw [hn]; simp, hd, hf⟩

/-- A record variable stands for a record type or for the name of a record. -/
theorem Allows.record {types : TypeMap} {n : ℕ} {fs : Fields}
    (h : Allows types σ (.recordVar n fs)) :
    (∃ w gs, (σ n).canon = .recordVar w gs) ∨ (∃ gs, (σ n).canon = .record gs) ∨
      ∃ m bs tn gs, (σ n).canon = .name m bs ∧
        types.resolveTypeName m = some (.record tn gs) := by
  cases h with
  | recordVar hg _ =>
    generalize σ n = g at hg
    cases hg with
    | recordVar w _ => exact Or.inl ⟨w, _, canon_recordVar w _⟩
    | record _ => exact Or.inr (Or.inl ⟨_, canon_record _⟩)
    | @name _ d _ _ hd hf =>
      cases d with
      | record tn gs => exact Or.inr (Or.inr ⟨_, _, tn, gs, canon_name _ _, hd⟩)
      | _ => simp [TypeDefinition.recordFields] at hf

end

/-! ### Going down -/

/-- The run of the jobs ends well, or with two record types that no arm unifies. -/
def Settles (types : TypeMap) (uf : UnionFind) (js : List Job) : Prop :=
  (∃ log s uf', Solve types uf js log s .ok uf') ∨
    ∃ log s uf' fs gs, Solve types uf js log s (.clash (.record fs) (.record gs)) uf'

/-- A store with the solution `σ` in which every variable has a root. -/
structure Solvable (D : Declarations) (σ : Assignment) (uf : UnionFind) : Prop where
  valid : uf.Valid D.types
  solves : Solves D.types uf σ
  rooted : ∀ i < uf.inner.length, ∃ r, Root uf i r

/-- Unset variables stay as they are, except those whose type is in `S`. -/
structure Frame (S : Typ → Prop) (σ : Assignment) (uf uf' : UnionFind) : Prop where
  length : uf'.inner.length = uf.inner.length
  unset : ∀ (i : ℕ) (e : Typ), uf.inner[i]? = some e → e.varIndex = some i →
    ¬ S (σ i).canon → uf'.inner[i]? = some e

section
variable {D : Declarations} {σ : Assignment} {uf uf' : UnionFind} {js : List Job}

theorem Settles.bind {types : TypeMap} {v : ℕ} {t : Typ} (h : Settles types (uf.set v t) js) :
    Settles types uf (.bind v t :: js) := by
  rcases h with ⟨log, s, uf', h⟩ | ⟨log, s, uf', fs, gs, h⟩
  · exact Or.inl ⟨_, _, _, .bind h⟩
  · exact Or.inr ⟨_, _, _, _, _, .bind h⟩

theorem Settles.unify {types : TypeMap} {uf₁ uf₂ : UnionFind} {n m : ℕ} {e : Bool}
    {a b a' b' : Typ} {r : Rule} (ha : uf.resolve n a = some (a', uf₁))
    (hb : uf₁.resolve m b = some (b', uf₂)) (hr : unifyArm types a' b' = some r)
    (h : Settles types uf₂ (r.jobs e a' b' ++ js)) : Settles types uf (.unify e a b :: js) := by
  rcases h with ⟨log, s, uf', h⟩ | ⟨log, s, uf', fs, gs, h⟩
  · exact Or.inl ⟨_, _, _, .unify ha hb hr h⟩
  · exact Or.inr ⟨_, _, _, _, _, .unify ha hb hr h⟩

theorem Frame.compressed (S : Typ → Prop) (hc : uf.Compressed uf') : Frame S σ uf uf' :=
  ⟨hc.length, fun i e hi he _ => (hc.unset i e he).mpr hi⟩

theorem Frame.trans {S : Typ → Prop} {uf₁ : UnionFind} (h : Frame S σ uf uf₁)
    (h' : Frame S σ uf₁ uf') : Frame S σ uf uf' :=
  ⟨h'.length.trans h.length, fun i e hi he hS => h'.unset i e (h.unset i e hi he hS) he hS⟩

theorem Frame.mono {S T : Typ → Prop} (hST : ∀ t, S t → T t) (h : Frame S σ uf uf') :
    Frame T σ uf uf' :=
  ⟨h.length, fun i e hi he hT => h.unset i e hi he fun hS => hT (hST _ hS)⟩

theorem Frame.set {S : Typ → Prop} {v : ℕ} {t : Typ} (hv : S (σ v).canon) :
    Frame S σ uf (uf.set v t) := by
  refine ⟨length_set v t, fun i e hi he hS => ?_⟩
  have hne : v ≠ i := fun heq => hS (heq ▸ hv)
  rw [inner_set_ne hne]
  exact hi

theorem Solvable.compressed (h : Solvable D σ uf) (hc : uf.Compressed uf') : Solvable D σ uf' where
  valid := hc.valid h.valid
  solves := h.solves.compressed hc
  rooted i hi := by
    obtain ⟨r, hr⟩ := h.rooted i (hc.length ▸ hi)
    exact ⟨r, (hc.root i r).mpr hr⟩

/-- Binding an unset variable to a resolved type with the right instance. -/
theorem Solvable.set (h : Solvable D σ uf) {v : ℕ} {t : Typ} (hv : uf.Unset v)
    (hk : uf.Known D.types t) (hres : uf.Resolves t t) (ht : (σ v).canon = t.inst σ)
    (hne : t.varIndex ≠ some v) : Solvable D σ (uf.set v t) where
  valid := h.valid.set hk
  solves := h.solves.set ht hne
  rooted i hi := by
    obtain ⟨e, he, hev⟩ := hv
    rw [length_set] at hi
    obtain ⟨r, hr⟩ := h.rooted i hi
    have hlt : v < uf.inner.length := (List.getElem?_eq_some_iff.mp he).1
    by_cases hrv : r.varIndex = some v
    · exact ⟨t, hr.set_self he hev hrv
        (root_set_of_resolves hlt (hres.set_other he hev hne))⟩
    · exact ⟨r, hr.set_other he hev hrv⟩

theorem Solvable.resolves (h : Solvable D σ uf) {a : Typ} (ha : uf.Known D.types a) :
    ∃ r, uf.Resolves a r := by
  cases hv : a.varIndex with
  | none => exact ⟨a, Or.inl ⟨hv, rfl⟩⟩
  | some i =>
    obtain ⟨r, hr⟩ := h.rooted i (Typ.varIndex_lt hv ha)
    exact ⟨r, Or.inr ⟨i, hv, hr⟩⟩

theorem image_of_mem_zip {F : Typ → Typ} {as bs : List Typ} (h : as.map F = bs.map F)
    {p : Typ × Typ} (hp : p ∈ as.zip bs) : F p.1 = F p.2 := by
  induction as generalizing bs with
  | nil => cases hp
  | cons a as ih =>
    cases bs with
    | nil => cases hp
    | cons b bs =>
      obtain ⟨hab, hrest⟩ := List.cons.inj h
      rcases List.mem_cons.mp hp with rfl | hp
      · exact hab
      · exact ih hrest hp

/-- The solution makes the types of the job the same. -/
def Job.SolvedBy (σ : Assignment) : Job → Prop
  | .unify _ a b => a.inst σ = b.inst σ
  | .bind v t => (σ v).canon = t.inst σ ∧ t.varIndex ≠ some v
  | .fail _ _ => True

/-- The jobs of an arm on two resolved types with one instance. -/
theorem Arm.solvedBy {a b : Typ} {r : Rule} (harm : Arm D.types a b r)
    (h : Solves D.types uf σ) (hra : uf.Resolves a a) (hrb : uf.Resolves b b)
    (ha : uf.Known D.types a) (hb : uf.Known D.types b) (hab : a.inst σ = b.inst σ) (e : Bool) :
    ∀ j ∈ r.jobs e a b, j.SolvedBy σ := by
  have hindex : ∀ {x y : Typ} {v : ℕ}, uf.Resolves x x → uf.Resolves y y → x ≠ y →
      x.varIndex = some v → y.varIndex ≠ some v := fun hx hy hxy hxv hyv =>
    hxy (Option.some.inj ((hx.unset hxv).symm.trans (hy.unset hyv)))
  have hfields : ∀ {fa fb : Fields} {v : ℕ} {t g : Typ},
      FieldsAt D.types g (sortFields (Typ.inst σ) fa) →
      FieldsAt D.types g (sortFields (Typ.inst σ) fb) → (σ v).canon = t.inst σ →
      t.varIndex ≠ some v → ∀ j ∈ (Rule.fields fa fb v t).jobs e a b, j.SolvedBy σ := by
    intro fa fb v t g hfa hfb hv hne j hj
    obtain ⟨hall, hpairs⟩ := matchFields_of_sortFields (hfa.unique hfb)
    simp only [Rule.jobs, hall, cond_true] at hj
    split at hj
    · obtain rfl := List.mem_singleton.mp hj
      trivial
    · rcases List.mem_append.mp hj with hj | hj
      · obtain ⟨p, hp, rfl⟩ := List.mem_map.mp hj
        exact hpairs p hp
      · obtain rfl := List.mem_singleton.mp hj
        exact ⟨hv, hne⟩
  have hallow : ∀ {x : Typ}, uf.Resolves x x → ∀ i, x.varIndex = some i → Allows D.types σ x :=
    fun hx i hi => h.allows hx hi
  cases harm with
  | same | neverLeft _ | neverRight _ => exact fun j hj => by cases hj
  | bindLeft hne _ hv =>
    intro j hj
    obtain rfl := List.mem_singleton.mp hj
    exact ⟨by rw [← inst_of_varIndex σ hv, hab], hindex hra hrb hne hv⟩
  | bindRight hne _ hv =>
    intro j hj
    obtain rfl := List.mem_singleton.mp hj
    exact ⟨by rw [← inst_of_varIndex σ hv, hab], hindex hrb hra hne.symm hv⟩
  | @fieldsLeft v fa fb _ hne hf =>
    exact hfields (FieldsOf.inst h (.recordVar v fa) ha (hallow hra))
      (hab ▸ FieldsOf.inst h hf hb (hallow hrb)) hab (hindex hra hrb hne rfl)
  | @fieldsRight v fa fb =>
    exact hfields (FieldsOf.inst h (.record fa) ha (hallow hra))
      (hab ▸ FieldsOf.inst h (.recordVar v fb) hb (hallow hrb)) hab.symm (by simp [Typ.varIndex])
  | @fieldsRightName v fa fb n as hf =>
    exact hfields (FieldsOf.inst h (.recordVar v fb) hb (hallow hrb))
      (hab ▸ FieldsOf.inst h hf ha (hallow hra)) hab.symm (by simp [Typ.varIndex])
  | names _ =>
    intro j hj
    obtain ⟨p, hp, rfl⟩ := List.mem_map.mp hj
    rw [inst_name, inst_name] at hab
    exact image_of_mem_zip (Typ.name.inj hab).2 hp
  | functions _ =>
    intro j hj
    obtain ⟨p, hp, rfl⟩ := List.mem_map.mp hj
    rw [inst_function, inst_function] at hab
    obtain ⟨hps, hr⟩ := Typ.function.inj hab
    rcases List.mem_append.mp hp with hp | hp
    · exact image_of_mem_zip hps hp
    · obtain rfl := List.mem_singleton.mp hp
      exact hr
  | fail =>
    intro j hj
    obtain rfl := List.mem_singleton.mp hj
    trivial

/-- A solution that makes the types of all jobs the same is one of every later store. -/
theorem Solve.solves {log : List Binding} {s : Bool} {o : Outcome}
    (h : Solve D.types uf js log s o uf') (hinv : RunInv D uf js) (hσ : Solves D.types uf σ)
    (hjs : ∀ j ∈ js, j.SolvedBy σ) : Solves D.types uf' σ := by
  induction h with
  | nil uf => exact hσ
  | fail uf a b js => exact hσ
  | bind _ ih =>
    obtain ⟨hv, hne⟩ := hjs _ (List.mem_cons_self ..)
    exact ih hinv.bind.2.2 (hσ.set hv hne) fun j hj => hjs j (List.mem_cons_of_mem _ hj)
  | @unify uf uf₁ uf₂ uf' n m e a b a' b' r js log s o hra hrb hr _ ih =>
    obtain ⟨hc, ha, hb, harm, hinv'⟩ := hinv.unify hra hrb hr
    obtain ⟨hka, hkb⟩ := hinv.known _ (List.mem_cons_self ..)
    have hσ₂ := hσ.compressed hc
    have hab : a'.inst σ = b'.inst σ := by
      rw [← hσ.resolves ha, ← hσ.resolves hb]
      exact hjs _ (List.mem_cons_self ..)
    refine ih hinv' hσ₂ fun j hj => ?_
    rcases List.mem_append.mp hj with hj | hj
    · exact harm.solvedBy hσ₂ ((Resolves.compressed hc).mpr ha.idem)
        ((Resolves.compressed hc).mpr hb.idem) (hc.known.mpr (hinv.valid.resolves hka ha))
        (hc.known.mpr (hinv.valid.resolves hkb hb)) hab e j hj
    · exact hjs j (List.mem_cons_of_mem _ hj)

/-! ### Types that meet under a solution -/

variable {c : Call}

end

end Roto.TypeChecker
