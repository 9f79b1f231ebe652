import RotoCompiler.TypeChecker.Instance
import RotoCompiler.TypeChecker.SameLayout
import RotoCompiler.TypeChecker.UnifyAcyclic

/-!
# What a successful unification has made equal

After a call that gives `Ok` the two types have the same full resolution, where the types
that meet in it are finite, `Never` meets nothing but itself and functions have equally many
parameters: the arm for `Never` accepts any other type, at every depth, and the loops over
parameters stop at the shorter list.
-/

namespace Roto.TypeChecker
open Relation UnionFind

/-! ### Roots before and after a write -/

/-- The binding of an unset variable to a resolved type other than the variable. -/
def Binding.Proper (b : Binding) : Prop :=
  b.before.Unset b.var ∧ b.before.Resolves b.type b.type ∧ b.type.varIndex ≠ some b.var

section
variable {uf : UnionFind} {v : ℕ} {t x : Typ}

theorem Binding.Proper.resolves (hp : Binding.Proper ⟨uf, v, t⟩) :
    (uf.set v t).Resolves t t := by
  obtain ⟨⟨e, he, hev⟩, ht, hne⟩ := hp
  exact ht.set_other he hev hne

/-- What resolved before resolves still, to `t` in place of the variable. -/
theorem Binding.Proper.resolves_set (hp : Binding.Proper ⟨uf, v, t⟩) {r : Typ}
    (hr : uf.Resolves x r) :
    (r.varIndex = some v ∧ (uf.set v t).Resolves x t) ∨
      (r.varIndex ≠ some v ∧ (uf.set v t).Resolves x r) := by
  have ht := hp.resolves
  obtain ⟨⟨e, he, hev⟩, -, -⟩ := hp
  by_cases hrv : r.varIndex = some v
  · exact Or.inl ⟨hrv, hr.set_self he hev hrv ht⟩
  · exact Or.inr ⟨hrv, hr.set_other he hev hrv⟩

/-- What has a root afterwards had one before, and `Never` only if it is `Never` now. -/
theorem Binding.Proper.root_of_set (hp : Binding.Proper ⟨uf, v, t⟩) {i : ℕ} {r : Typ}
    (hr : Root (uf.set v t) i r) :
    ∃ r', Root uf i r' ∧ (t ≠ .never → r = .never → r' = .never) := by
  have ht := hp.resolves
  obtain ⟨⟨e, he, hev⟩, -, -⟩ := hp
  have hlt := (List.getElem?_eq_some_iff.mp he).1
  induction hr with
  | @here i r hi hself =>
    by_cases hvi : v = i
    · subst hvi
      rw [inner_set_self hlt] at hi
      obtain rfl := Option.some.inj hi
      exact ⟨e, .of_unset he hev, fun hne hr => absurd hr hne⟩
    · rw [inner_set_ne hvi] at hi
      exact ⟨r, .here hi hself, fun _ hr => hr⟩
  | @link i j u r hi hu hji hj ih =>
    by_cases hvi : v = i
    · -- the new link leads to `t`, which is its own root
      subst hvi
      rw [inner_set_self hlt] at hi
      obtain rfl := Option.some.inj hi
      have htr := ht.unique (Or.inr ⟨j, hu, hj⟩)
      exact ⟨e, .of_unset he hev, fun hne hr => absurd (htr.trans hr) hne⟩
    · rw [inner_set_ne hvi] at hi
      obtain ⟨r', hr', hnever⟩ := ih
      exact ⟨r', .link hi hu hji hr', hnever⟩

theorem Binding.Proper.resolves_of_set (hp : Binding.Proper ⟨uf, v, t⟩) {r : Typ}
    (hr : (uf.set v t).Resolves x r) :
    ∃ r', uf.Resolves x r' ∧ (t ≠ .never → r = .never → r' = .never) := by
  rcases hr with ⟨hn, rfl⟩ | ⟨i, hi, hroot⟩
  · exact ⟨_, Or.inl ⟨hn, rfl⟩, fun _ hx => hx⟩
  · obtain ⟨r', hr', hnever⟩ := hp.root_of_set hroot
    exact ⟨r', Or.inr ⟨i, hi, hr'⟩, hnever⟩

end

/-! ### What holds at the end -/

section
variable {D : Declarations} {c : Call} {uf uf₁ uf₂ uf' : UnionFind} {js : List Job}

/-- The two types have the same full resolution, if any. -/
def Agree (uf : UnionFind) (a b : Typ) : Prop := ∀ X, Expand uf a X ↔ Expand uf b X

theorem Agree.symm {a b : Typ} (h : Agree uf a b) : Agree uf b a := fun X => (h X).symm

theorem Agree.trans {a b c : Typ} (h : Agree uf a b) (h' : Agree uf b c) : Agree uf a c :=
  fun X => (h X).trans (h' X)

theorem Agree.sameExpansion {a b : Typ} (h : Agree uf a b) (hb : ∃ X, Expand uf b X) :
    SameExpansion uf a b := by
  obtain ⟨X, hX⟩ := hb
  exact ⟨X, (h X).mpr hX, hX⟩

theorem SameExpansion.congr {a a' b b' : Typ} (ha : Agree uf a a') (hb : Agree uf b b')
    (h : SameExpansion uf a' b') : SameExpansion uf a b := by
  obtain ⟨X, hX, hY⟩ := h
  exact ⟨X, (ha X).mpr hX, (hb X).mpr hY⟩

/-- What a run has settled in the store `uf'` that it ends with: it respects the store it
started from, bound variables agree with their types, and the exposed pairs of its jobs
are the same type when no difference was skipped and what they met is finite. -/
structure Settled (c : Call) (uf : UnionFind) (js : List Job) (s : Bool) (uf' : UnionFind) :
    Prop where
  later : ∀ a r, uf.Resolves a r → Agree uf' a r ∧ ∃ q, uf'.Resolves a q
  earlier : ∀ a r, uf'.Resolves a r → ∃ q, uf.Resolves a q ∧ (r = .never → q = .never)
  bound : ∀ v t, .bind v t ∈ js → ∀ a, a.varIndex = some v → Agree uf' a t
  noFail : ∀ a b, .fail a b ∉ js
  same : s = false → (∀ x, c.Meets x x → ∃ X, Expand uf' x X) →
    ∀ a b, .unify true a b ∈ js → SameExpansion uf' a b

theorem Settled.nil : Settled c uf [] false uf where
  later _ r h := ⟨fun _ => expand_congr h, r, h⟩
  earlier _ r h := ⟨r, h, id⟩
  bound _ _ h := nomatch h
  noFail _ _ h := nomatch h
  same _ _ _ _ h := nomatch h

theorem Settled.bind {v : ℕ} {t : Typ} {s : Bool} (hp : Binding.Proper ⟨uf, v, t⟩)
    (ht : t ≠ .never) (h : Settled c (uf.set v t) js s uf') :
    Settled c uf (.bind v t :: js) s uf' := by
  have hres := hp.resolves
  have hunset := hp.1
  refine ⟨fun a r hr => ?_, fun a r hr => ?_, fun w u hw a hav => ?_, fun a b hf => ?_,
    fun hs hexp a b hu => ?_⟩
  · rcases hp.resolves_set hr with ⟨hrv, har⟩ | ⟨-, har⟩
    · -- the root of the new type is the root of the variable from now on
      obtain ⟨hat, hq⟩ := h.later a t har
      rcases hp.resolves_set hr.idem with ⟨-, hrt⟩ | ⟨hne, -⟩
      · exact ⟨hat.trans (h.later r t hrt).1.symm, hq⟩
      · exact absurd hrv hne
    · exact h.later a r har
  · obtain ⟨q, hq, hqn⟩ := h.earlier a r hr
    obtain ⟨q', hq', hqn'⟩ := hp.resolves_of_set hq
    exact ⟨q', hq', fun hn => hqn' ht (hqn hn)⟩
  · rcases List.mem_cons.mp hw with heq | hw
    · obtain ⟨rfl, rfl⟩ := Job.bind.inj heq
      obtain ⟨e, he, hev⟩ := hunset
      have har : uf.Resolves a e := Or.inr ⟨_, hav, .of_unset he hev⟩
      rcases hp.resolves_set har with ⟨-, har⟩ | ⟨hne, -⟩
      · exact (h.later a _ har).1
      · exact absurd hev hne
    · exact h.bound w u hw a hav
  · rcases List.mem_cons.mp hf with heq | hf
    · cases heq
    · exact h.noFail a b hf
  · rcases List.mem_cons.mp hu with heq | hu
    · cases heq
    · exact h.same hs hexp a b hu

/-- The bindings that end the jobs of an arm on fields. -/
theorem mem_jobs_fields {fa fb : Fields} {v : ℕ} {t a b : Typ} {e : Bool}
    (h : ∀ x y, .fail x y ∉ (Rule.fields fa fb v t).jobs e a b) :
    .bind v t ∈ (Rule.fields fa fb v t).jobs e a b := by
  simp only [Rule.jobs] at h ⊢
  split
  · rename_i hlen
    simp [hlen] at h
  · rename_i hlen
    simp only [hlen, if_false, List.mem_append, List.mem_singleton, not_or] at h
    cases hm : (matchFields fa fb).2 with
    | true => simp
    | false => exact absurd (by simp [hm]) (h a b).2

theorem mem_unifyJobs {e : Bool} {ps : List (Typ × Typ)} {x y : Typ} :
    .unify true x y ∈ unifyJobs e ps ↔ e = true ∧ (x, y) ∈ ps := by
  constructor
  · intro h
    obtain ⟨⟨u, w⟩, hp, hj⟩ := List.mem_map.mp h
    obtain ⟨rfl, rfl, rfl⟩ := Job.unify.inj hj
    exact ⟨rfl, hp⟩
  · rintro ⟨rfl, hp⟩
    exact List.mem_map.mpr ⟨(x, y), hp, rfl⟩

/-- The two types of an arm that skips nothing end up the same. -/
theorem Arm.sameExpansion {a b : Typ} {r : Rule} {s : Bool} (harm : Arm D.types a b r)
    (h : Settled c uf (r.jobs true a b ++ js) s uf') (hs : s = false)
    (hskip : r.skips a b = false) (hexp : ∀ x, c.Meets x x → ∃ X, Expand uf' x X)
    (ha : ∃ X, Expand uf' a X) (hb : ∃ X, Expand uf' b X) :
    SameExpansion uf' a b := by
  have hfail : ∀ x y, .fail x y ∉ r.jobs true a b :=
    fun x y hm => h.noFail x y (List.mem_append_left _ hm)
  have hbound : ∀ {v t}, .bind v t ∈ r.jobs true a b → ∀ x, x.varIndex = some v → Agree uf' x t :=
    fun hm => h.bound _ _ (List.mem_append_left _ hm)
  have hsame : ∀ {x y}, .unify true x y ∈ r.jobs true a b → SameExpansion uf' x y :=
    fun hm => h.same hs hexp _ _ (List.mem_append_left _ hm)
  cases harm with
  | same =>
    obtain ⟨X, hX⟩ := ha
    exact ⟨X, hX, hX⟩
  | neverLeft hne => simp [Rule.skips, hne] at hskip
  | neverRight hne => simp [Rule.skips, hne] at hskip
  | bindLeft _ _ hv => exact (hbound (List.mem_cons_self ..) a hv).sameExpansion hb
  | bindRight _ _ hv =>
    obtain ⟨X, hX, hY⟩ := (hbound (List.mem_cons_self ..) b hv).sameExpansion ha
    exact ⟨X, hY, hX⟩
  | fieldsLeft _ _ => exact (hbound (mem_jobs_fields hfail) _ rfl).sameExpansion hb
  | fieldsRight =>
    obtain ⟨X, hX, hY⟩ := (hbound (mem_jobs_fields hfail) (.recordVar _ _) rfl).sameExpansion ha
    exact ⟨X, hY, hX⟩
  | fieldsRightName _ =>
    obtain ⟨X, hX, hY⟩ := (hbound (mem_jobs_fields hfail) (.recordVar _ _) rfl).sameExpansion ha
    exact ⟨X, hY, hX⟩
  | @names n as bs _ =>
    have hlen : as.length = bs.length := by
      by_contra hne
      simp [Rule.skips, Typ.children, hne] at hskip
    exact .name (List.forall₂_iff_zip.mpr ⟨hlen, fun hp =>
      hsame (mem_unifyJobs.mpr ⟨rfl, hp⟩)⟩)
  | @functions ps qs r q _ =>
    have hlen : ps.length = qs.length := by
      by_contra hne
      simp [Rule.skips, Typ.children, hne] at hskip
    refine .function (List.forall₂_iff_zip.mpr ⟨hlen, fun hp => ?_⟩) ?_
    · exact hsame (mem_unifyJobs.mpr ⟨rfl, List.mem_append_left _ hp⟩)
    · exact hsame (mem_unifyJobs.mpr ⟨rfl, List.mem_append_right _ (List.mem_singleton_self _)⟩)
  | fail => exact absurd (by simp [Rule.jobs]) (hfail a b)

theorem Settled.unify {e : Bool} {a b a' b' : Typ} {r : Rule} {s : Bool}
    (hc : uf.Compressed uf₂) (hra : uf.Resolves a a') (hrb : uf.Resolves b b')
    (harm : Arm D.types a' b' r) (hma : c.Meets a' a') (hmb : c.Meets b' b')
    (h : Settled c uf₂ (r.jobs e a' b' ++ js) s uf') :
    Settled c uf (.unify e a b :: js) (s || (e && r.skips a' b')) uf' := by
  have hres : ∀ {u w : Typ}, uf.Resolves u w → uf₂.Resolves u w :=
    fun huw => (Resolves.compressed hc).mpr huw
  refine ⟨fun u w huw => h.later u w (hres huw), fun u w huw => ?_, fun v t hj => ?_,
    fun x y hj => ?_, fun hs hexp x y hj => ?_⟩
  · obtain ⟨q, hq, hqn⟩ := h.earlier u w huw
    exact ⟨q, (Resolves.compressed hc).mp hq, hqn⟩
  · rcases List.mem_cons.mp hj with heq | hj
    · cases heq
    · exact h.bound v t (List.mem_append_right _ hj)
  · rcases List.mem_cons.mp hj with heq | hj
    · cases heq
    · exact h.noFail x y (List.mem_append_right _ hj)
  · simp only [Bool.or_eq_false_iff] at hs
    rcases List.mem_cons.mp hj with heq | hj
    · obtain ⟨rfl, rfl, rfl⟩ := Job.unify.inj heq
      have hab := harm.sameExpansion h hs.1 (by simpa using hs.2) hexp (hexp _ hma) (hexp _ hmb)
      exact hab.congr (h.later x a' (hres hra)).1 (h.later y b' (hres hrb)).1
    · exact h.same hs.1 hexp x y (List.mem_append_right _ hj)

/-- A run that ends well, in a call in which no record variable gets inside itself. -/
theorem Solve.settled {log : List Binding} {s : Bool} (hc : c.RecordsOpen)
    (h : Solve c.decls.types uf js log s .ok uf') (hf : c.Follows uf js)
    (hnever : ∀ v t, .bind v t ∈ js → t ≠ .never) : Settled c uf js s uf' := by
  generalize ho : Outcome.ok = o at h
  induction h with
  | nil uf => exact .nil
  | fail uf a b js => cases ho
  | bind _ ih =>
    have hp := hf.ready _ _ (List.mem_cons_self ..)
    have hset := ih (hf.bind hc) (fun v t hj => hnever v t (List.mem_cons_of_mem _ hj)) ho
    exact hset.bind hp (hnever _ _ (List.mem_cons_self ..))
  | @unify uf uf₁ uf₂ uf' n m e a b a' b' r js log s o hra hrb hr hrun ih =>
    obtain ⟨hcomp, ha, hb, harm, -⟩ := hf.toRunInv.unify hra hrb hr
    have hmeets : c.Meets a b := hf.compares _ (List.mem_cons_self ..)
    have hset := ih (hf.unify hra hrb hr) (fun v t hj => ?_) ho
    · exact hset.unify hcomp ha hb harm (hf.tracks.resolves ha hmeets).symm.left
        (hf.tracks.resolves hb hmeets.symm).symm.left
    · rcases List.mem_append.mp hj with hj | hj
      · exact (Call.bind_of_arm harm hj).2.1
      · exact hnever v t (List.mem_cons_of_mem _ hj)

/-! ### What a sound call is given -/

/-- The types that meet in the call are finite, `Never` meets nothing but itself, and functions
that meet have equally many parameters. -/
structure Call.Definite (c : Call) : Prop where
  rooted : ∀ x, c.Meets x x → ∃ r, c.store.Resolves x r
  notCircular : ¬ c.Circular
  never : ∀ x, c.Meets .never x → c.store.Resolves x .never
  parameters : ∀ ps qs r s, c.Meets (.function ps r) (.function qs s) → ps.length = qs.length

theorem UnionFind.Opens.resolves {t : Typ} (h : uf.Opens t) : uf.Resolves t t := by
  cases hv : t.varIndex with
  | none => exact Or.inl ⟨hv, rfl⟩
  | some i => exact Or.inr ⟨i, hv, .of_unset (h i hv) hv⟩

/-- In such a call no arm accepts a difference. -/
theorem Call.Definite.skips_eq_false (hd : c.Definite) {a b : Typ} {r : Rule} {k : ℕ}
    (h : c.Meets a b) (harm : Arm c.decls.types a b r) (ha : c.store.Opens a)
    (hb : c.store.Opens b) (hka : a.wellFormed c.decls.types (some k) [] = true)
    (hkb : b.wellFormed c.decls.types (some k) [] = true) : r.skips a b = false := by
  cases harm with
  | same => simp [Rule.skips]
  | neverLeft hne => exact absurd ((hd.never b h).unique hb.resolves) hne
  | neverRight hne => exact absurd (ha.resolves.unique (hd.never a h.symm)) hne
  | names _ =>
    obtain ⟨d, hd, hla, -⟩ := Typ.wellFormed_name.mp hka
    obtain ⟨d', hd', hlb, -⟩ := Typ.wellFormed_name.mp hkb
    rw [hd] at hd'
    obtain rfl := Option.some.inj hd'
    simp [Rule.skips, Typ.children, ← hla, ← hlb]
  | functions _ => simp [Rule.skips, Typ.children, hd.parameters _ _ _ _ h]
  | bindLeft _ _ _ | bindRight _ _ _ | fieldsLeft _ _ | fieldsRight | fieldsRightName _ | fail =>
    rfl

theorem Call.Definite.noSkip (hd : c.Definite) {log : List Binding} {s : Bool} {o : Outcome}
    (h : Solve c.decls.types uf js log s o uf') (hf : c.Follows uf js) : s = false := by
  have hc := Call.recordsOpen_of_not_circular hd.notCircular
  induction h with
  | nil uf | fail uf a b js => rfl
  | bind _ ih => exact ih (hf.bind hc)
  | @unify uf uf₁ uf₂ uf' n m e a b a' b' r js log s o hra hrb hr _ ih =>
    obtain ⟨hcomp, ha, hb, harm, -⟩ := hf.toRunInv.unify hra hrb hr
    have hmeets : c.Meets a b := hf.compares _ (List.mem_cons_self ..)
    have hma := hf.tracks.resolves ha hmeets
    have hmb := hf.tracks.resolves hb hmeets.symm
    obtain ⟨hka, hkb⟩ := hf.known _ (List.mem_cons_self ..)
    have hskip := hd.skips_eq_false (hma.symm.trans (hmeets.trans hmb)) harm
      (hf.tracks.opens ha) (hf.tracks.opens hb) (hf.valid.resolves hka ha)
      (hf.valid.resolves hkb hb)
    rw [ih (hf.unify hra hrb hr), hskip]
    simp

/-- What is met in such a call has a full resolution in every store that tracks it and has a
root for all of it. -/
theorem Call.Tracks.exists_expand (ht : c.Tracks uf) (hv : uf.Valid c.decls.types)
    (hroot : ∀ x, c.Meets x x → ∃ r, uf.Resolves x r) (hc : ¬ c.Circular) {x : Typ}
    (hx : c.Meets x x) (hk : uf.Known c.decls.types x) : ∃ X, Expand uf x X := by
  have hwf : WellFounded fun j i =>
      TransGen c.Encloses (.var i) (.var j) ∧ i < uf.inner.length := by
    refine Graph.Acyclic.wellFounded (fun i hi => ?_) (Set.finite_lt_nat uf.inner.length)
      fun _ _ h => h.2
    refine hc ⟨.var i, ?_⟩
    have hle : ∀ {j k : ℕ}, TransGen (fun i j =>
        TransGen c.Encloses (.var i) (.var j) ∧ i < uf.inner.length) j k →
        TransGen c.Encloses (.var j) (.var k) := by
      intro j k hjk
      induction hjk with
      | single h => exact h.1
      | tail _ h ih => exact ih.trans h.1
    exact hle hi
  have hvar : ∀ i < uf.inner.length, c.Meets (.var i) (.var i) → ∃ X, Expand uf (.var i) X := by
    intro i
    induction i using hwf.induction with
    | _ i ih =>
      intro hi hm
      obtain ⟨r, hr⟩ := hroot _ hm
      have hir := ht.resolves hr hm
      have hkr : uf.Known c.decls.types r :=
        hv.resolves (by simpa [Known, Typ.wellFormed] using hi) hr
      -- the variables inside the root expand
      have hin : ∀ {y : ℕ}, TransGen c.Encloses r (.var y) → y < uf.inner.length →
          ∃ X, Expand uf (.var y) X := fun hy hlt =>
        ih _ ⟨hir.inside_left hy, hi⟩ hlt (Call.Meets.inside_meets hy)
      cases r with
      | recordVar n fs =>
        refine exists_expand_of_children hr fun p hp => ?_
        obtain ⟨f, hf, rfl⟩ := List.mem_map.mp hp
        have hkf := (Typ.wellFormed_recordVar.mp hkr).2 f hf
        refine exists_expand_of_vars hkf fun y hy => hin ?_ (Typ.vars_lt hkf y hy)
        exact hir.symm.fields (ht.opens hr n rfl) (Typ.mem_varsFields.mpr ⟨f, hf, hy⟩)
      | var _ | intVar _ _ | floatVar _ =>
        exact exists_expand_of_children hr (List.forall_mem_nil _)
      | _ =>
        have hvars := exists_expand_of_vars hkr fun y hy =>
          hin ((hir.symm.vars hy).resolve_left (by simp [Typ.varIndex])) (Typ.vars_lt hkr y hy)
        obtain ⟨X, hX⟩ := hvars
        exact ⟨X, (expand_congr hr).mpr hX⟩
  refine exists_expand_of_vars hk fun i hi => hvar i (Typ.vars_lt hk i hi) ?_
  rcases hx.vars hi with hiv | hin
  · exact (hx.index hiv).symm.left
  · exact Call.Meets.inside_meets hin

/-- Conversions of the two types that succeed give one MIR type. -/
def SameLayout (types : TypeMap) (uf : UnionFind) (a b : Typ) : Prop :=
  ∀ n m x y u w, convert types n uf a = some (some x, u) →
    convert types m uf b = some (some y, w) → x = y

theorem SameExpansion.sameLayout {a b : Typ} (h : SameExpansion uf a b)
    (hv : uf.Valid D.types) (ha : uf.Known D.types a) (hb : uf.Known D.types b) :
    SameLayout D.types uf a b := fun n m x y u w hx hy =>
  (equalOn_convert hv n m h ha hb uf uf x y u w (.refl uf) (.refl uf) hx hy).1

/-- A definite call that ends well makes its two types the same. -/
theorem Call.Definite.sound (hd : c.Definite) (hv : c.store.Valid c.decls.types)
    (ha : c.store.Known c.decls.types c.a) (hb : c.store.Known c.decls.types c.b)
    {log : List Binding} {s : Bool}
    (hs : Solve c.decls.types c.store [.unify true c.a c.b] log s .ok uf') :
    SameType uf' c.a c.b ∧ SameLayout c.decls.types uf' c.a c.b := by
  have hopen := Call.recordsOpen_of_not_circular hd.notCircular
  have hf := Call.follows_start (e := true) hv ha hb
  have hset := hs.settled hopen hf fun v t hj => by simp at hj
  have hnoskip := hd.noSkip hs hf
  have htracks := (Call.Follows.solve hopen hs hf).2.1
  obtain ⟨hvalid, hlen⟩ := hs.valid hf.toRunInv
  have hknown : ∀ {x : Typ}, c.store.Known c.decls.types x → uf'.Known c.decls.types x := by
    intro x hk
    rw [Known, hlen]
    exact hk
  have hroot : ∀ x, c.Meets x x → ∃ r, uf'.Resolves x r := by
    intro x hx
    obtain ⟨r, hr⟩ := hd.rooted x hx
    exact (hset.later x r hr).2
  have hexp : ∀ x, c.Meets x x → ∃ X, Expand uf' x X := fun x hx =>
    htracks.exists_expand hvalid hroot hd.notCircular hx (hknown (hx.known hv ha hb).1)
  have hsame := hset.same hnoskip hexp _ _ (List.mem_singleton_self _)
  exact ⟨hsame.sameType, hsame.sameLayout hvalid (hknown ha) (hknown hb)⟩

/-! ### Without record variables -/

/-- No record variable meets anything. -/
def Call.Recordless (c : Call) : Prop := ∀ v fs, ¬ c.Meets (.recordVar v fs) (.recordVar v fs)

theorem Call.Recordless.open (h : c.Recordless) : c.RecordsOpen := by
  intro v fs hv hin
  exact h v fs ((Call.Meets.inside_meets hin).entry hv).symm.left

theorem SameType.symm {a b : Typ} (h : SameType uf a b) : SameType uf b a := by
  obtain ⟨X, Y, hX, hY, hXY⟩ := h
  exact ⟨Y, X, hY, hX, hXY.symm⟩

theorem SameType.trans {a b d : Typ} (h : SameType uf a b) (h' : SameType uf b d) :
    SameType uf a d := by
  obtain ⟨X, Y, hX, hY, hXY⟩ := h
  obtain ⟨Y', Z, hY', hZ, hYZ⟩ := h'
  obtain rfl := hY.unique hY'
  exact ⟨X, Z, hX, hZ, hXY.trans hYZ⟩

theorem SameType.of_agree {a b d : Typ} (h : SameType uf a b) (had : Agree uf a d) :
    SameType uf a d := by
  obtain ⟨X, -, hX, -, -⟩ := h
  exact ⟨X, X, hX, (had X).mp hX, rfl⟩

theorem Typ.children_withChildren {a : Typ} {ts : List Typ}
    (h : ts.length = a.children.length) : (a.withChildren ts).children = ts := by
  cases a with
  | recordVar n fs | record fs =>
    have hlen : ts.length = (fs.map Prod.fst).length := by simpa [Typ.children] using h
    exact List.map_snd_zip (le_of_eq hlen)
  | function ps r =>
    cases ts with
    | nil => simp [Typ.children] at h
    | cons t ts => rfl
  | name n as => rfl
  | _ => exact (List.length_eq_zero_iff.mp h).symm

/-- The parts of a type with a full resolution have one, which is a part of it. -/
theorem expand_of_mem_children {a p X : Typ} (ha : uf.Resolves a a) (hX : Expand uf a X)
    (hp : p ∈ a.children) : ∃ P, Expand uf p P ∧ P ∈ X.children := by
  obtain ⟨r, ts, hr, hlen, hc, rfl⟩ := hX.inv
  obtain rfl := ha.unique hr
  rw [Typ.children_withChildren hlen]
  have hzip : p ∈ (a.children.zip ts).map Prod.fst := by
    rw [List.map_fst_zip (le_of_eq hlen.symm)]
    exact hp
  obtain ⟨⟨p', P⟩, hmem, rfl⟩ := List.mem_map.mp hzip
  exact ⟨P, hc _ hmem, (List.of_mem_zip hmem).2⟩

/-- A variable and its index resolve alike. -/
theorem agree_index {x : Typ} {i : ℕ} (hi : x.varIndex = some i) : Agree uf x (.var i) := by
  have hvar : (Typ.var i).varIndex = some i := rfl
  have hres : ∀ r, uf.Resolves x r ↔ uf.Resolves (.var i) r := by
    intro r
    simp only [Resolves, hi, hvar, reduceCtorEq, false_and]
  intro X
  constructor
  · intro h
    obtain ⟨r, ts, hr, hlen, hc, rfl⟩ := h.inv
    exact .mk ((hres r).mp hr) hlen hc
  · intro h
    obtain ⟨r, ts, hr, hlen, hc, rfl⟩ := h.inv
    exact .mk ((hres r).mpr hr) hlen hc

theorem UnionFind.Root.resolves_entry {i : ℕ} {e r : Typ} (h : Root uf i r)
    (he : uf.inner[i]? = some e) : uf.Resolves e r := by
  cases h with
  | here hi hself =>
    obtain rfl := Option.some.inj (he.symm.trans hi)
    exact Resolves.idem (a := .var i) (Or.inr ⟨i, rfl, .here hi hself⟩)
  | link hi hj _ hr =>
    obtain rfl := Option.some.inj (he.symm.trans hi)
    exact Or.inr ⟨_, hj, hr⟩

/-- No part of a type is a part of a variable here. -/
theorem Call.Recordless.resolves (hr : c.Recordless) {x y p : Typ} (h : c.Meets x y)
    (hp : p ∈ x.children) (uf : UnionFind) : uf.Resolves x x := by
  cases x with
  | recordVar v fs => exact absurd h.left (hr v fs)
  | var _ | intVar _ _ | floatVar _ => cases hp
  | _ => exact Or.inl ⟨rfl, rfl⟩

/-- After a call that made its two types the same, all types that meet are. -/
theorem Call.Recordless.sameType (hr : c.Recordless) {s : Bool}
    (hset : Settled c c.store js s uf') (hab : SameType uf' c.a c.b) {x y : Typ}
    (h : c.Meets x y) : SameType uf' x y := by
  induction h with
  | start => exact hab
  | symm _ ih => exact ih.symm
  | trans _ _ ih ih' => exact ih.trans ih'
  | index _ hi ih => exact ih.of_agree (agree_index hi)
  | @entry i y e _ he ih =>
    obtain ⟨X, -, hX, -, -⟩ := id ih
    obtain ⟨r, -, hres, -, -, -⟩ := hX.inv
    obtain ⟨q, hq, -⟩ := hset.earlier _ r hres
    have heq : c.store.Resolves e q := by
      rcases hq with ⟨hn, -⟩ | ⟨j, hj, hroot⟩
      · cases hn
      · obtain rfl := Option.some.inj hj
        exact hroot.resolves_entry he
    exact ih.of_agree ((hset.later _ q hq).1.trans (hset.later e q heq).1.symm)
  | part h _ hp ih =>
    obtain ⟨X, -, hX, -, -⟩ := ih
    obtain ⟨P, hP, -⟩ := expand_of_mem_children (hr.resolves h hp uf') hX hp
    exact ⟨P, P, hP, hP, rfl⟩
  | arg _ hp ih => exact (List.forall₂_iff_zip.mp ih.name_inv).2 hp
  | param _ hp ih => exact (List.forall₂_iff_zip.mp ih.function_inv.1).2 hp
  | result _ ih => exact ih.function_inv.2
  | field h _ _ _ _ _ => exact absurd h.left (hr _ _)

end

/-! ### `fn f(x: Option[!]) -> Option[u8] { x }` -/

end Roto.TypeChecker
