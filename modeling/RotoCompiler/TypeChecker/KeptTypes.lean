import RotoCompiler.TypeChecker.UnifyAcyclic

/-!
# What unification keeps (typechecker/mod.rs)

A variable that resolves to an integer type keeps on doing so, whatever the checker does next.
A set of types is kept when bindings lead from it into it. Records are apart: their variables
are bound after their fields were unified, when they may be bound already.
-/

namespace Roto.TypeChecker
open UnionFind Relation

variable {types : TypeMap} {P : Typ → Prop} {uf uf' : UnionFind}

/-- A type with fields: a record, a variable of one, or the name of one. -/
def RecordLike (types : TypeMap) (t : Typ) : Prop := ∃ fs, FieldsOf types t fs

/-- A set of types that no write of the checker leads out of. -/
structure Kept (types : TypeMap) (P : Typ → Prop) : Prop where
  notRecord : ∀ t, P t → ¬ RecordLike types t
  bound : ∀ a b v t, P a → a.varIndex = some v →
    unifyArm types a b = some (.bind v t) ∨ unifyArm types b a = some (.bind v t) → P t
  marked : ∀ n, P (.intVar n .no) → P (.intVar n .yes)

/-- The type is among the kept ones. -/
def Pinned (P : Typ → Prop) (uf : UnionFind) (t : Typ) : Prop := ∃ r, uf.Resolves t r ∧ P r

/-- The variable is one of a record, as far as it resolves. -/
def RecordAt (types : TypeMap) (uf : UnionFind) (v : ℕ) : Prop :=
  ∀ r, Root uf v r → RecordLike types r

/-- What a part of unification leaves as it was. -/
structure Keeps (types : TypeMap) (P : Typ → Prop) (uf uf' : UnionFind) : Prop where
  pinned : ∀ t, Pinned P uf t → Pinned P uf' t
  records : ∀ v, RecordAt types uf v → RecordAt types uf' v

namespace Keeps

theorem refl (uf : UnionFind) : Keeps types P uf uf := ⟨fun _ h => h, fun _ h => h⟩

theorem trans {uf₁ : UnionFind} (h : Keeps types P uf uf₁) (h' : Keeps types P uf₁ uf') :
    Keeps types P uf uf' :=
  ⟨fun t ht => h'.pinned t (h.pinned t ht), fun v hv => h'.records v (h.records v hv)⟩

theorem of_compressed (hc : uf.Compressed uf') : Keeps types P uf uf' where
  pinned := fun _ ⟨r, hr, hP⟩ => ⟨r, (Resolves.compressed hc).mpr hr, hP⟩
  records := fun v hv r hr => hv r ((hc.root v r).mp hr)

end Keeps

/-! ### Writes -/

/-- Where a root comes from after a write: it was the root before, or the chain goes through
what was written. -/
theorem root_of_set {v i : ℕ} {t r : Typ} (h : Root (uf.set v t) i r) :
    Root uf i r ∨ Root (uf.set v t) v r ∧ ∀ e, Root uf v e → Root uf i e := by
  induction h with
  | @here i r hi hself =>
    by_cases hvi : v = i
    · subst hvi
      exact .inr ⟨.here hi hself, fun e he => he⟩
    · rw [inner_set_ne hvi] at hi
      exact .inl (.here hi hself)
  | @link i j u r hi hu hji hj ih =>
    by_cases hvi : v = i
    · subst hvi
      exact .inr ⟨.link hi hu hji hj, fun e he => he⟩
    · rw [inner_set_ne hvi] at hi
      rcases ih with hroot | ⟨hroot, hthrough⟩
      · exact .inl (.link hi hu hji hroot)
      · exact .inr ⟨hroot, fun e he => .link hi hu hji (hthrough e he)⟩

/-- A chain that does not go through what is written. -/
theorem root_set_avoid {v i : ℕ} {t r : Typ} (h : Root uf i r) (hv : ¬ Root uf v r) :
    Root (uf.set v t) i r := by
  induction h with
  | @here i r hi hself =>
    have hvi : v ≠ i := by
      rintro rfl
      exact hv (.here hi hself)
    exact .here (by rw [inner_set_ne hvi]; exact hi) hself
  | @link i j u r hi hu hji hj ih =>
    have hvi : v ≠ i := by
      rintro rfl
      exact hv (.link hi hu hji hj)
    exact .link (by rw [inner_set_ne hvi]; exact hi) hu hji (ih hv)

/-- A variable of another kind than records, and what it may be bound to. -/
structure Settable (types : TypeMap) (P : Typ → Prop) (uf : UnionFind) (v : ℕ) (t : Typ) : Prop where
  unset : ∃ e, uf.inner[v]? = some e ∧ e.varIndex = some v ∧ ¬ RecordLike types e ∧ (P e → P t)
  resolved : ∀ k, t.varIndex = some k → uf.inner[k]? = some t ∨ k = v

theorem keeps_set {v : ℕ} {t : Typ} (h : Settable types P uf v t) :
    Keeps types P uf (uf.set v t) := by
  obtain ⟨e, he, hev, hnot, hP⟩ := h.unset
  have hlt : v < uf.inner.length := (List.getElem?_eq_some_iff.mp he).1
  have hroot : Root (uf.set v t) v t := by
    by_cases hself : ∀ k, t.varIndex = some k → k = v
    · exact .here (inner_set_self hlt) hself
    · push Not at hself
      obtain ⟨k, hk, hkv⟩ := hself
      have hslot := (h.resolved k hk).resolve_right hkv
      refine .link (inner_set_self hlt) hk hkv (Root.of_unset ?_ hk)
      rw [inner_set_ne (Ne.symm hkv)]
      exact hslot
  constructor
  · rintro a ⟨r, hr, hPr⟩
    by_cases hrv : r.varIndex = some v
    · have hre : r = e := by
        have hslot := hr.unset hrv
        rw [he] at hslot
        exact (Option.some.inj hslot).symm
      rcases hr with ⟨hn, rfl⟩ | ⟨i, hi, hri⟩
      · rw [hn] at hrv
        cases hrv
      · exact ⟨t, .inr ⟨i, hi, hri.set_self he hev hrv hroot⟩, hP (hre ▸ hPr)⟩
    · exact ⟨r, hr.set_other he hev hrv, hPr⟩
  · intro w hw r hr
    rcases root_of_set hr with hold | ⟨-, hthrough⟩
    · exact hw r hold
    · exact absurd (hw e (hthrough e (Root.of_unset he hev))) hnot

/-- A record variable is bound to a record, whatever became of it in the meantime. -/
theorem keeps_set_record (hP : Kept types P) {v : ℕ} {t : Typ} (hv : RecordAt types uf v)
    (ht : RecordLike types t) (hlink : ∀ k, t.varIndex = some k → RecordAt types uf k) :
    Keeps types P uf (uf.set v t) := by
  have hrecord : ∀ i r, Root (uf.set v t) i r → RecordAt types uf i ∨ i = v →
      RecordLike types r := by
    intro i r hr
    induction hr with
    | @here i r hi hself =>
      intro hcase
      by_cases hvi : v = i
      · subst hvi
        have hlt : v < uf.inner.length := by
          have hlt := (List.getElem?_eq_some_iff.mp hi).1
          rwa [length_set] at hlt
        rw [inner_set_self hlt] at hi
        exact Option.some.inj hi ▸ ht
      · rw [inner_set_ne hvi] at hi
        exact (hcase.resolve_right (Ne.symm hvi)) r (.here hi hself)
    | @link i j u r hi hu hji hj ih =>
      intro hcase
      by_cases hvi : v = i
      · subst hvi
        have hlt : v < uf.inner.length := by
          have hlt := (List.getElem?_eq_some_iff.mp hi).1
          rwa [length_set] at hlt
        rw [inner_set_self hlt] at hi
        obtain rfl := Option.some.inj hi
        exact ih (.inl (hlink j hu))
      · rw [inner_set_ne hvi] at hi
        have hat := hcase.resolve_right (Ne.symm hvi)
        exact ih (.inl fun s hs => hat s (.link hi hu hji hs))
  constructor
  · rintro a ⟨r, hr, hPr⟩
    rcases hr with hn | ⟨i, hi, hri⟩
    · exact ⟨r, .inl hn, hPr⟩
    · have havoid : ¬ Root uf v r := fun h => hP.notRecord r hPr (hv r h)
      exact ⟨r, .inr ⟨i, hi, root_set_avoid hri havoid⟩, hPr⟩
  · exact fun w hw r hr => hrecord w r hr (.inl hw)

/-! ### Unification -/

theorem not_recordLike_of_var {t : Typ} (h : ∀ v fs, t ≠ .recordVar v fs) {v : ℕ}
    (hv : t.varIndex = some v) : ¬ RecordLike types t := by
  rintro ⟨fs, hfs⟩
  cases hfs with
  | recordVar w fs => exact h w fs rfl
  | record fs => cases hv
  | name hd hf => cases hv

/-- A binding is of the variable of one side, to the other side. -/
theorem bind_of_unifyArm {a b : Typ} {v : ℕ} {t : Typ}
    (h : unifyArm types a b = some (.bind v t)) :
    (a.varIndex = some v ∧ ¬ RecordLike types a ∧ t = b) ∨
      (b.varIndex = some v ∧ ¬ RecordLike types b ∧ t = a) := by
  unfold unifyArm at h
  split_ifs at h with hab
  · cases h
  have hside : ∀ c : Typ, (∀ w fs, c ≠ .recordVar w fs) → ∀ w, c.varIndex = some w →
      ¬ RecordLike types c := fun c hc w hw => not_recordLike_of_var hc hw
  split at h
  · cases h
  · cases h
  · cases h
  · cases h
  · unfold unifyIntvars at h
    split_ifs at h
    · obtain ⟨rfl, rfl⟩ := Rule.bind.inj (Option.some.inj h)
      exact .inr ⟨rfl, hside _ (fun _ _ h => nomatch h) _ rfl, rfl⟩
    · obtain ⟨rfl, rfl⟩ := Rule.bind.inj (Option.some.inj h)
      exact .inl ⟨rfl, hside _ (fun _ _ h => nomatch h) _ rfl, rfl⟩
  · rcases unifyIntName_cases h with heq | heq
    · obtain ⟨rfl, rfl⟩ := Rule.bind.inj heq
      exact .inl ⟨rfl, hside _ (fun _ _ h => nomatch h) _ rfl, rfl⟩
    · cases heq
  · rcases unifyIntName_cases h with heq | heq
    · obtain ⟨rfl, rfl⟩ := Rule.bind.inj heq
      exact .inr ⟨rfl, hside _ (fun _ _ h => nomatch h) _ rfl, rfl⟩
    · cases heq
  · obtain ⟨rfl, rfl⟩ := Rule.bind.inj (Option.some.inj h)
    exact .inl ⟨rfl, hside _ (fun _ _ h => nomatch h) _ rfl, rfl⟩
  · rcases unifyFloatName_cases h with heq | heq
    · obtain ⟨rfl, rfl⟩ := Rule.bind.inj heq
      exact .inl ⟨rfl, hside _ (fun _ _ h => nomatch h) _ rfl, rfl⟩
    · cases heq
  · rcases unifyFloatName_cases h with heq | heq
    · obtain ⟨rfl, rfl⟩ := Rule.bind.inj heq
      exact .inr ⟨rfl, hside _ (fun _ _ h => nomatch h) _ rfl, rfl⟩
    · cases heq
  · obtain ⟨rfl, rfl⟩ := Rule.bind.inj (Option.some.inj h)
    exact .inl ⟨rfl, hside _ (fun _ _ h => nomatch h) _ rfl, rfl⟩
  · obtain ⟨rfl, rfl⟩ := Rule.bind.inj (Option.some.inj h)
    exact .inr ⟨rfl, hside _ (fun _ _ h => nomatch h) _ rfl, rfl⟩
  · cases h
  · cases h
  · cases h
  · rcases unifyRecordName_cases h with heq | ⟨gs, -, heq⟩ <;> cases heq
  · rcases unifyRecordName_cases h with heq | ⟨gs, -, heq⟩ <;> cases heq
  · split_ifs at h <;> cases h
  · cases h
  · cases h

/-- Fields are unified for a record variable, which is bound to the other side then. -/
theorem fields_of_unifyArm {a b : Typ} {fa fb : Fields} {v : ℕ} {t : Typ}
    (h : unifyArm types a b = some (.fields fa fb v t)) :
    (∃ fs, a = .recordVar v fs ∨ b = .recordVar v fs) ∧ RecordLike types t ∧ (t = a ∨ t = b) := by
  have harm := arm_of_unifyArm h
  cases harm with
  | fieldsLeft hne hb => exact ⟨⟨_, .inl rfl⟩, ⟨_, hb⟩, .inr rfl⟩
  | fieldsRight => exact ⟨⟨_, .inr rfl⟩, ⟨_, .record _⟩, .inl rfl⟩
  | fieldsRightName ha => exact ⟨⟨_, .inr rfl⟩, ⟨_, ha⟩, .inl rfl⟩

/-- What unification of two types leaves as it was. -/
def KeepsAll (types : TypeMap) (P : Typ → Prop) (f : UnionFind → Typ → Typ → UnifyResult Typ) :
    Prop := ∀ uf a b o uf', f uf a b = some (o, uf') → Keeps types P uf uf'

section
variable {f : UnionFind → Typ → Typ → UnifyResult Typ}

theorem keeps_unifyPairs (hf : KeepsAll types P f) {ps : List (Typ × Typ)} {o : Option Unit}
    (h : unifyPairs f uf ps = some (o, uf')) : Keeps types P uf uf' := by
  induction ps generalizing uf with
  | nil =>
    obtain ⟨-, rfl⟩ := Prod.mk.inj (Option.some.inj h)
    exact .refl _
  | cons p ps ih =>
    obtain ⟨a, b⟩ := p
    unfold unifyPairs at h
    cases hab : f uf a b with
    | none => simp [hab] at h
    | some r =>
      obtain ⟨o₁, uf₁⟩ := r
      rw [hab] at h
      cases o₁ with
      | none =>
        obtain ⟨-, rfl⟩ := Prod.mk.inj (Option.some.inj h)
        exact hf _ _ _ _ _ hab
      | some t => exact (hf _ _ _ _ _ hab).trans (ih h)

theorem keeps_unifyFieldsLoop (hf : KeepsAll types P f) {as bs : Fields} {o : Option Fields}
    (h : unifyFieldsLoop f uf as bs = some (o, uf')) : Keeps types P uf uf' := by
  induction as generalizing uf bs o with
  | nil =>
    obtain ⟨-, rfl⟩ := Prod.mk.inj (Option.some.inj h)
    exact .refl _
  | cons p as ih =>
    obtain ⟨name, a⟩ := p
    unfold unifyFieldsLoop at h
    cases htake : takeField name.node bs with
    | none =>
      rw [htake] at h
      obtain ⟨-, rfl⟩ := Prod.mk.inj (Option.some.inj h)
      exact .refl _
    | some r =>
      obtain ⟨b, rest⟩ := r
      simp only [htake] at h
      cases hab : f uf a b with
      | none => simp [hab] at h
      | some r =>
        obtain ⟨o₁, uf₁⟩ := r
        rw [hab] at h
        cases o₁ with
        | none =>
          obtain ⟨-, rfl⟩ := Prod.mk.inj (Option.some.inj h)
          exact hf _ _ _ _ _ hab
        | some t =>
          refine (hf _ _ _ _ _ hab).trans ?_
          cases hrest : unifyFieldsLoop f uf₁ as rest with
          | none => simp [hrest] at h
          | some r =>
            obtain ⟨o₂, uf₂⟩ := r
            simp only [hrest] at h
            cases o₂ with
            | none =>
              obtain ⟨-, rfl⟩ := Prod.mk.inj (Option.some.inj h)
              exact ih hrest
            | some fs =>
              obtain ⟨-, rfl⟩ := Prod.mk.inj (Option.some.inj h)
              exact ih hrest

end

/-- Unification keeps what is kept. -/
theorem keeps_unifyInner (hP : Kept types P) (fuel : ℕ) :
    KeepsAll types P (unifyInner types fuel) := by
  induction fuel with
  | zero =>
    intro uf a b o uf' h
    cases h
  | succ fuel ih =>
    intro uf a b o uf' h
    unfold unifyInner at h
    cases ha : uf.resolve fuel a with
    | none => simp [ha] at h
    | some ra =>
    obtain ⟨a', uf₁⟩ := ra
    simp only [ha] at h
    cases hb : uf₁.resolve fuel b with
    | none => simp [hb] at h
    | some rb =>
    obtain ⟨b', uf₂⟩ := rb
    simp only [hb] at h
    obtain ⟨hra, hca⟩ := resolve_spec ha
    obtain ⟨hrb, hcb⟩ := resolve_spec hb
    have hc := hca.trans hcb
    have hslot : ∀ c k, c = a' ∨ c = b' → c.varIndex = some k → uf₂.inner[k]? = some c := by
      rintro c k (rfl | rfl) hk
      · exact ((Resolves.compressed hc).mpr hra).unset hk
      · exact ((Resolves.compressed hcb).mpr hrb).unset hk
    refine (Keeps.of_compressed hc).trans ?_
    cases harm : unifyArm types a' b' with
    | none => simp [harm] at h
    | some rule =>
    rw [harm] at h
    cases rule with
    | done t =>
      obtain ⟨-, rfl⟩ := Prod.mk.inj (Option.some.inj h)
      exact .refl _
    | fail =>
      obtain ⟨-, rfl⟩ := Prod.mk.inj (Option.some.inj h)
      exact .refl _
    | bind v t =>
      obtain ⟨-, rfl⟩ := Prod.mk.inj (Option.some.inj h)
      refine keeps_set ?_
      rcases bind_of_unifyArm harm with ⟨hv, hnot, rfl⟩ | ⟨hv, hnot, rfl⟩
      · exact ⟨⟨a', hslot a' v (.inl rfl) hv, hv, hnot,
          fun hPa => hP.bound a' _ v _ hPa hv (.inl harm)⟩,
          fun k hk => .inl (hslot _ k (.inr rfl) hk)⟩
      · exact ⟨⟨b', hslot b' v (.inr rfl) hv, hv, hnot,
          fun hPb => hP.bound b' _ v _ hPb hv (.inr harm)⟩,
          fun k hk => .inl (hslot _ k (.inl rfl) hk)⟩
    | pairs ps t =>
      dsimp only at h
      cases hps : unifyPairs (unifyInner types fuel) uf₂ ps with
      | none => simp [hps] at h
      | some r =>
        obtain ⟨o₁, uf₃⟩ := r
        rw [hps] at h
        cases o₁ with
        | none =>
          obtain ⟨-, rfl⟩ := Prod.mk.inj (Option.some.inj h)
          exact keeps_unifyPairs ih hps
        | some u =>
          obtain ⟨-, rfl⟩ := Prod.mk.inj (Option.some.inj h)
          exact keeps_unifyPairs ih hps
    | fields fa fb v t =>
      dsimp only at h
      obtain ⟨⟨fs, hv⟩, ht, htab⟩ := fields_of_unifyArm harm
      have hat : ∀ c k, c = a' ∨ c = b' → RecordLike types c → c.varIndex = some k →
          RecordAt types uf₂ k := by
        intro c k hcab hrec hk r hr
        rw [← (Root.of_unset (hslot c k hcab hk) hk).unique hr]
        exact hrec
      have hvrec : RecordAt types uf₂ v := by
        rcases hv with rfl | rfl
        · exact hat _ v (.inl rfl) ⟨fs, .recordVar v fs⟩ rfl
        · exact hat _ v (.inr rfl) ⟨fs, .recordVar v fs⟩ rfl
      have hkeeps : ∀ o₁ uf₃, unifyFields (unifyInner types fuel) uf₂ fa fb = some (o₁, uf₃) →
          Keeps types P uf₂ uf₃ := by
        intro o₁ uf₃ hfields
        unfold unifyFields at hfields
        split_ifs at hfields with hlen
        · obtain ⟨-, rfl⟩ := Prod.mk.inj (Option.some.inj hfields)
          exact .refl _
        · exact keeps_unifyFieldsLoop ih hfields
      cases hfields : unifyFields (unifyInner types fuel) uf₂ fa fb with
      | none => simp [hfields] at h
      | some r =>
        obtain ⟨o₁, uf₃⟩ := r
        rw [hfields] at h
        have hk := hkeeps o₁ uf₃ hfields
        cases o₁ with
        | none =>
          obtain ⟨-, rfl⟩ := Prod.mk.inj (Option.some.inj h)
          exact hk
        | some u =>
          obtain ⟨-, rfl⟩ := Prod.mk.inj (Option.some.inj h)
          refine hk.trans (keeps_set_record hP (hk.records v hvrec) ht fun k hkt => ?_)
          exact hk.records k (hat t k htab ht hkt)

/-! ### Everything that the checker does -/

theorem pinned_unify (hP : Kept types P) {fuel : ℕ} {a b : Typ} {r : Except (Typ × Typ) Typ}
    (h : unify types fuel uf a b = some (r, uf')) {t : Typ} (ht : Pinned P uf t) :
    Pinned P uf' t := by
  unfold unify at h
  cases hu : unifyInner types fuel uf a b with
  | none => simp [hu] at h
  | some q =>
    obtain ⟨o, uf₁⟩ := q
    rw [hu] at h
    have hkeeps := (keeps_unifyInner hP fuel _ _ _ _ _ hu).pinned t ht
    cases o with
    | some u =>
      obtain ⟨-, rfl⟩ := Prod.mk.inj (Option.some.inj h)
      exact hkeeps
    | none =>
      dsimp only at h
      cases ha : uf₁.resolve fuel a with
      | none => simp [ha] at h
      | some ra =>
        obtain ⟨a', uf₂⟩ := ra
        simp only [ha] at h
        cases hb : uf₂.resolve fuel b with
        | none => simp [hb] at h
        | some rb =>
          obtain ⟨b', uf₃⟩ := rb
          simp only [hb, Option.some.injEq, Prod.mk.injEq] at h
          obtain ⟨-, rfl⟩ := h
          have hc := (resolve_spec ha).2.trans (resolve_spec hb).2
          have hkept : Keeps types P _ _ := .of_compressed hc
          exact hkept.pinned t hkeeps

theorem root_fresh {f : ℕ → Typ} {i : ℕ} {r : Typ} (h : Root uf i r) : Root (uf.fresh f).2 i r := by
  induction h with
  | here hi hself => exact .here (List.getElem?_append_left (List.getElem?_eq_some_iff.mp hi).1 ▸ hi) hself
  | link hi hu hji _ ih =>
    exact .link (List.getElem?_append_left (List.getElem?_eq_some_iff.mp hi).1 ▸ hi) hu hji ih

theorem pinned_fresh {f : ℕ → Typ} {t : Typ} (h : Pinned P uf t) : Pinned P (uf.fresh f).2 t := by
  obtain ⟨r, hr, hPr⟩ := h
  rcases hr with hn | ⟨i, hi, hri⟩
  · exact ⟨r, .inl hn, hPr⟩
  · exact ⟨r, .inr ⟨i, hi, root_fresh hri⟩, hPr⟩

theorem pinned_mark (hP : Kept types P) {n : ℕ} (hn : uf.inner[n]? = some (.intVar n .no)) {t : Typ}
    (h : Pinned P uf t) : Pinned P (uf.set n (.intVar n .yes)) t := by
  have hset : Settable types P uf n (.intVar n .yes) := by
    refine ⟨⟨_, hn, rfl, ?_, hP.marked n⟩, fun k hk => ?_⟩
    · exact not_recordLike_of_var (fun _ _ h => nomatch h) rfl
    · exact .inr (Option.some.inj hk).symm
  exact (keeps_set hset).pinned t h

/-- The checker goes on from a store. -/
def Later (D : Declarations) : UnionFind → UnionFind → Prop :=
  ReflTransGen fun uf uf' => ∃ op log, Step D uf op log uf'

theorem pinned_step {D : Declarations} (hP : Kept D.types P) {op : Op} {log : List Binding}
    (hs : Step D uf op log uf') {t : Typ} (h : Pinned P uf t) : Pinned P uf' t := by
  cases hs with
  | freshVar => exact pinned_fresh h
  | freshInt => exact pinned_fresh h
  | freshFloat => exact pinned_fresh h
  | freshRecord hf => exact pinned_fresh h
  | mustBeSigned hn => exact pinned_mark hP hn h
  | resolve ht hr =>
    have hkept : Keeps D.types P _ _ := .of_compressed (resolve_spec hr).2
    exact hkept.pinned t h
  | unify ha hb hsolve hu => exact pinned_unify hP hu h

/-- What is kept is kept in all of the rest of a run. -/
theorem pinned_later {D : Declarations} (hP : Kept D.types P) (hl : Later D uf uf') {t : Typ}
    (h : Pinned P uf t) : Pinned P uf' t := by
  induction hl with
  | refl => exact h
  | tail _ hs ih =>
    obtain ⟨op, log, hs⟩ := hs
    exact pinned_step hP hs ih

end Roto.TypeChecker
