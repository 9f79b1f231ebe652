import RotoCompiler.TypeChecker.UnifyRun

/-!
# The types that meet in a call of unify

Which types a call can compare is read off what it is given: two types meet when the
equation of `a` and `b` makes them equal, variables standing for their entries and types
being taken apart as the arms do it. A run compares only types that meet, in whatever order
it writes the store.
-/

namespace Roto.TypeChecker
open Relation UnionFind

/-- An unset variable leads to the variables of its fields only. -/
theorem Typ.targets_self {t : Typ} {i j : ℕ} (hi : t.varIndex = some i) (hj : j ∈ t.targets i) :
    ∃ fs, t = .recordVar i fs ∧ j ∈ Typ.varsFields fs := by
  cases t <;> simp_all [Typ.varIndex, Typ.targets]

/-- What a call of `unify` is given. -/
structure Call where
  decls : Declarations
  store : UnionFind
  a : Typ
  b : Typ

/-- The type has parts of its own: it is no variable, or a variable that is its own entry. -/
def UnionFind.Opens (uf : UnionFind) (t : Typ) : Prop :=
  ∀ i, t.varIndex = some i → uf.inner[i]? = some t

namespace Call

inductive Meets (c : Call) : Typ → Typ → Prop where
  | start : Meets c c.a c.b
  | symm {x y : Typ} (h : Meets c x y) : Meets c y x
  | trans {x y z : Typ} (h : Meets c x y) (h' : Meets c y z) : Meets c x z
  /-- a variable is known by its index, whatever its kind -/
  | index {x y : Typ} {i : ℕ} (h : Meets c x y) (hi : x.varIndex = some i) : Meets c x (.var i)
  | entry {i : ℕ} {y e : Typ} (h : Meets c (.var i) y) (he : c.store.inner[i]? = some e) :
      Meets c (.var i) e
  /-- the parts of a type that meets another are there, too -/
  | part {x y p : Typ} (h : Meets c x y) (hx : c.store.Opens x) (hp : p ∈ x.children) :
      Meets c p p
  | arg {n : ResolvedName} {as bs : List Typ} {p : Typ × Typ}
      (h : Meets c (.name n as) (.name n bs)) (hp : p ∈ as.zip bs) : Meets c p.1 p.2
  | param {ps qs : List Typ} {r s : Typ} {p : Typ × Typ}
      (h : Meets c (.function ps r) (.function qs s)) (hp : p ∈ ps.zip qs) : Meets c p.1 p.2
  | result {ps qs : List Typ} {r s : Typ} (h : Meets c (.function ps r) (.function qs s)) :
      Meets c r s
  /-- fields of one name, where one side is an unset record variable -/
  | field {v : ℕ} {fs gs : Fields} {y : Typ} {p : Typ × Typ} (h : Meets c (.recordVar v fs) y)
      (hv : c.store.inner[v]? = some (.recordVar v fs)) (hy : c.store.Opens y)
      (hg : FieldsOf c.decls.types y gs)
      (hp : p ∈ (matchFields fs gs).1 ∨ p ∈ (matchFields gs fs).1) : Meets c p.1 p.2

/-- `y` is a part of `x`, up to types that meet. -/
def Encloses (c : Call) (x y : Typ) : Prop :=
  ∃ x' p, c.Meets x x' ∧ c.store.Opens x' ∧ p ∈ x'.children ∧ c.Meets p y

/-- The equation makes some type a part of itself. -/
def Circular (c : Call) : Prop := ∃ x, TransGen c.Encloses x x

variable {c : Call} {x y z : Typ}

theorem Meets.left (h : c.Meets x y) : c.Meets x x := h.trans h.symm

theorem Meets.encloses (h : c.Meets x y) (hx : c.store.Opens x) {p : Typ} (hp : p ∈ x.children) :
    c.Encloses x p := ⟨x, p, h.left, hx, hp, h.part hx hp⟩

theorem Encloses.left (h : c.Encloses x y) : c.Meets x x := by
  obtain ⟨x', p, hx, -⟩ := h
  exact hx.left

theorem Meets.encloses_left (h : c.Meets x y) (h' : c.Encloses y z) : c.Encloses x z := by
  obtain ⟨y', p, hy, hopens, hp, hz⟩ := h'
  exact ⟨y', p, h.trans hy, hopens, hp, hz⟩

theorem Meets.encloses_right (h' : c.Encloses x y) (h : c.Meets y z) : c.Encloses x z := by
  obtain ⟨x', p, hx, hopens, hp, hy⟩ := h'
  exact ⟨x', p, hx, hopens, hp, hy.trans h⟩

theorem Meets.inside_left (h : c.Meets x y) (h' : TransGen c.Encloses y z) :
    TransGen c.Encloses x z := by
  obtain ⟨w, hyw, hwz⟩ := TransGen.head'_iff.mp h'
  exact .head' (h.encloses_left hyw) hwz

theorem Meets.inside_right (h' : TransGen c.Encloses x y) (h : c.Meets y z) :
    TransGen c.Encloses x z := by
  obtain ⟨w, hxw, hwy⟩ := TransGen.tail'_iff.mp h'
  exact .tail' hxw (Meets.encloses_right hwy h)

/-- Only types that the checker can hold meet. -/
theorem Meets.known (hv : c.store.Valid c.decls.types) (ha : c.store.Known c.decls.types c.a)
    (hb : c.store.Known c.decls.types c.b) (h : c.Meets x y) :
    c.store.Known c.decls.types x ∧ c.store.Known c.decls.types y := by
  induction h with
  | start => exact ⟨ha, hb⟩
  | symm _ ih => exact ih.symm
  | trans _ _ ih ih' => exact ⟨ih.1, ih'.2⟩
  | index _ hi ih =>
    exact ⟨ih.1, by simpa [Known, Typ.wellFormed] using Typ.varIndex_lt hi ih.1⟩
  | entry _ he ih => exact ⟨ih.1, hv.entry he⟩
  | part _ _ hp ih => exact ⟨Typ.wellFormed_children ih.1 hp, Typ.wellFormed_children ih.1 hp⟩
  | arg _ hp ih =>
    have hz := List.of_mem_zip hp
    exact ⟨Typ.wellFormed_children ih.1 hz.1, Typ.wellFormed_children ih.2 hz.2⟩
  | param _ hp ih =>
    have hz := List.of_mem_zip hp
    exact ⟨Typ.wellFormed_children ih.1 (List.mem_cons_of_mem _ hz.1),
      Typ.wellFormed_children ih.2 (List.mem_cons_of_mem _ hz.2)⟩
  | result _ ih =>
    exact ⟨Typ.wellFormed_children ih.1 (List.mem_cons_self ..),
      Typ.wellFormed_children ih.2 (List.mem_cons_self ..)⟩
  | field _ _ _ hg hp ih =>
    have hfs := (Typ.wellFormed_recordVar.mp ih.1).2
    have hgs := hg.wellFormed c.decls ih.2
    rcases hp with hp | hp
    · obtain ⟨⟨f, hf, hfp⟩, g, hg, hgp⟩ := mem_of_matchFields hp
      exact ⟨hfp ▸ hfs f hf, hgp ▸ hgs g hg⟩
    · obtain ⟨⟨f, hf, hfp⟩, g, hg, hgp⟩ := mem_of_matchFields hp
      exact ⟨hfp ▸ hgs f hf, hgp ▸ hfs g hg⟩

/-- A type meets its variables, or has them inside. -/
theorem Meets.vars (h : c.Meets x y) {j : ℕ} (hj : j ∈ x.vars) :
    x.varIndex = some j ∨ TransGen c.Encloses x (.var j) := by
  -- below a part, the variable is the part or inside it
  have hpart : ∀ {t u p : Typ}, c.Meets t u → t.varIndex = none → p ∈ t.children →
      (p.varIndex = some j ∨ TransGen c.Encloses p (.var j)) →
      TransGen c.Encloses t (.var j) := by
    intro t u p ht hv hp hor
    have hopens : c.store.Opens t := fun i hi => by rw [hv] at hi; cases hi
    have henc := ht.encloses hopens hp
    rcases hor with hi | hin
    · exact .single (Meets.encloses_right henc ((ht.part hopens hp).index hi))
    · exact .head henc hin
  have hopen : ∀ {t u p : Typ}, c.Meets t u → t.varIndex = none → p ∈ t.children →
      c.Meets p p := fun ht hv hp => ht.part (fun i hi => by rw [hv] at hi; cases hi) hp
  induction x generalizing y with
  | var n | intVar n _ | floatVar n | recordVar n _ _ =>
    obtain rfl := List.mem_singleton.mp hj
    exact Or.inl rfl
  | explicitVar _ | unit | never => cases hj
  | record fs ih =>
    obtain ⟨f, hf, hjf⟩ := Typ.mem_varsFields.mp hj
    have hp : f.2 ∈ (Typ.record fs).children := List.mem_map_of_mem hf
    exact Or.inr (hpart h rfl hp (ih f hf (hopen h rfl hp) hjf))
  | function ps r ihp ihr =>
    rcases List.mem_append.mp hj with hj | hj
    · obtain ⟨q, hq, hjq⟩ := Typ.mem_varsList.mp hj
      have hp : q ∈ (Typ.function ps r).children := List.mem_cons_of_mem _ hq
      exact Or.inr (hpart h rfl hp (ihp q hq (hopen h rfl hp) hjq))
    · have hp : r ∈ (Typ.function ps r).children := List.mem_cons_self ..
      exact Or.inr (hpart h rfl hp (ihr (hopen h rfl hp) hj))
  | name n as ih =>
    obtain ⟨q, hq, hjq⟩ := Typ.mem_varsList.mp hj
    exact Or.inr (hpart h rfl hq (ih q hq (hopen h rfl hq) hjq))

/-- The variables of its fields are inside an unset record variable. -/
theorem Meets.fields {i j : ℕ} {fs : Fields} (h : c.Meets (.recordVar i fs) y)
    (hi : c.store.inner[i]? = some (.recordVar i fs)) (hj : j ∈ Typ.varsFields fs) :
    TransGen c.Encloses (.recordVar i fs) (.var j) := by
  obtain ⟨f, hf, hjf⟩ := Typ.mem_varsFields.mp hj
  have hopens : c.store.Opens (.recordVar i fs) := fun k hk => by
    obtain rfl := Option.some.inj hk
    exact hi
  have hp : f.2 ∈ (Typ.recordVar i fs).children := List.mem_map_of_mem hf
  have henc := h.encloses hopens hp
  have hpart := h.part hopens hp
  rcases hpart.vars hjf with hv | hin
  · exact .single (Meets.encloses_right henc (hpart.index hv))
  · exact .head henc hin

/-- The types that meet are among any that hold `a` and `b` and, of each type, its variable,
what the store has for it, its children and its named fields. -/
theorem Meets.mem_of_closed {S : List Typ} (ha : c.a ∈ S) (hb : c.b ∈ S)
    (hindex : ∀ t ∈ S, ∀ i ∈ t.varIndex, .var i ∈ S ∧ ∀ u ∈ c.store.inner[i]?, u ∈ S)
    (hpart : ∀ t ∈ S, ∀ p ∈ t.children, p ∈ S)
    (hfield : ∀ t ∈ S, ∀ fs, FieldsOf c.decls.types t fs → ∀ f ∈ fs, f.2 ∈ S)
    (h : c.Meets x y) : x ∈ S ∧ y ∈ S := by
  induction h with
  | start => exact ⟨ha, hb⟩
  | symm _ ih => exact ih.symm
  | trans _ _ ih ih' => exact ⟨ih.1, ih'.2⟩
  | index _ hi ih => exact ⟨ih.1, (hindex _ ih.1 _ hi).1⟩
  | entry _ he ih => exact ⟨ih.1, (hindex _ ih.1 _ rfl).2 _ he⟩
  | part _ _ hp ih => exact ⟨hpart _ ih.1 _ hp, hpart _ ih.1 _ hp⟩
  | arg _ hp ih =>
    have hz := List.of_mem_zip hp
    exact ⟨hpart _ ih.1 _ hz.1, hpart _ ih.2 _ hz.2⟩
  | param _ hp ih =>
    have hz := List.of_mem_zip hp
    exact ⟨hpart _ ih.1 _ (List.mem_cons_of_mem _ hz.1),
      hpart _ ih.2 _ (List.mem_cons_of_mem _ hz.2)⟩
  | result _ ih =>
    exact ⟨hpart _ ih.1 _ (List.mem_cons_self ..), hpart _ ih.2 _ (List.mem_cons_self ..)⟩
  | @field v fs gs y p _ _ _ hg hp ih =>
    have hfs := hfield _ ih.1 fs (.recordVar v fs)
    have hgs := hfield _ ih.2 gs hg
    rcases hp with hp | hp
    · obtain ⟨⟨f, hf, hfp⟩, g, hg, hgp⟩ := mem_of_matchFields hp
      exact ⟨hfp ▸ hfs f hf, hgp ▸ hgs g hg⟩
    · obtain ⟨⟨f, hf, hfp⟩, g, hg, hgp⟩ := mem_of_matchFields hp
      exact ⟨hfp ▸ hgs f hf, hgp ▸ hfs g hg⟩

theorem Meets.inside_meets (h : TransGen c.Encloses x y) : c.Meets y y := by
  obtain ⟨w, -, w', p, -, -, -, hp⟩ := TransGen.tail'_iff.mp h
  exact hp.symm.left

theorem not_circular_of_leaves (h : ∀ x y, c.Meets x y → y.children = []) : ¬ c.Circular := by
  rintro ⟨x, hx⟩
  obtain ⟨-, ⟨x', p, hm, -, hp, -⟩, -⟩ := TransGen.head'_iff.mp hx
  rw [h x x' hm] at hp
  cases hp

end Call

/-! ### The stores of a run -/

/-- A later store: what it has for a variable meets the variable, and its unset variables
are those of the store before the call. -/
structure Call.Tracks (c : Call) (uf : UnionFind) : Prop where
  entry : ∀ (i : ℕ) (e y : Typ), c.Meets (.var i) y → uf.inner[i]? = some e →
    c.Meets (.var i) e
  unset : ∀ (i : ℕ) (e : Typ), uf.inner[i]? = some e → e.varIndex = some i →
    c.store.inner[i]? = some e

namespace Call

variable {c : Call} {uf uf' : UnionFind} {x y : Typ}

theorem tracks_store (c : Call) : c.Tracks c.store :=
  ⟨fun _ _ _ h he => h.entry he, fun _ _ he _ => he⟩

theorem Tracks.root (ht : c.Tracks uf) {i : ℕ} {r : Typ} (hr : Root uf i r)
    (h : c.Meets (.var i) y) : c.Meets (.var i) r := by
  induction hr generalizing y with
  | here hi _ => exact ht.entry _ _ _ h hi
  | link hi hj _ _ ih =>
    have he := ht.entry _ _ _ h hi
    have hindex := he.symm.index hj
    exact he.trans (hindex.trans (ih hindex.symm))

theorem Tracks.resolves (ht : c.Tracks uf) {r : Typ} (hr : uf.Resolves x r)
    (h : c.Meets x y) : c.Meets x r := by
  rcases hr with ⟨-, rfl⟩ | ⟨i, hi, hroot⟩
  · exact h.left
  · have hindex := h.index hi
    exact hindex.trans (ht.root hroot hindex.symm)

/-- A resolved type has parts of its own in the store before the call. -/
theorem Tracks.opens (ht : c.Tracks uf) {r : Typ} (hr : uf.Resolves x r) : c.store.Opens r :=
  fun i hi => ht.unset i r (hr.unset hi) hi

theorem Tracks.compressed (ht : c.Tracks uf) (hc : uf.Compressed uf') : c.Tracks uf' where
  entry i e y h he := by
    rcases hc.entry i e he with he | hr
    · exact ht.entry i e y h he
    · exact ht.root hr h
  unset i e he hv := ht.unset i e ((hc.unset i e hv).mp he) hv

theorem Tracks.set (ht : c.Tracks uf) {v : ℕ} {t : Typ} (h : c.Meets (.var v) t)
    (hv : t.varIndex ≠ some v) : c.Tracks (uf.set v t) where
  entry i e y hy he := by
    by_cases hvi : v = i
    · subst hvi
      have hlt := (List.getElem?_eq_some_iff.mp he).1
      rw [length_set] at hlt
      rw [inner_set_self hlt] at he
      obtain rfl := Option.some.inj he
      exact h
    · rw [inner_set_ne hvi] at he
      exact ht.entry i e y hy he
  unset i e he hi := by
    by_cases hvi : v = i
    · subst hvi
      have hlt := (List.getElem?_eq_some_iff.mp he).1
      rw [length_set] at hlt
      rw [inner_set_self hlt] at he
      obtain rfl := Option.some.inj he
      exact absurd hi hv
    · rw [inner_set_ne hvi] at he
      exact ht.unset i e he hi

/-- An edge of a later store leads to a type that meets, or into one. -/
theorem Tracks.dep (ht : c.Tracks uf) {i j : ℕ} (h : c.Meets (.var i) y) (hd : uf.Dep i j) :
    c.Meets (.var i) (.var j) ∨ TransGen c.Encloses (.var i) (.var j) := by
  obtain ⟨e, he, hj⟩ := hd
  have hie := ht.entry i e y h he
  rcases Typ.targets_subset hj with hvars | ⟨fs, rfl, hfields⟩
  · rcases hie.symm.vars hvars with hi | hin
    · exact Or.inl (hie.trans (hie.symm.index hi))
    · exact Or.inr (hie.inside_left hin)
  · exact Or.inr (hie.inside_left (hie.symm.fields (ht.unset _ _ he rfl) hfields))

theorem Tracks.walk (ht : c.Tracks uf) {i j : ℕ} (h : c.Meets (.var i) y)
    (hd : ReflTransGen uf.Dep i j) :
    c.Meets (.var i) (.var j) ∨ TransGen c.Encloses (.var i) (.var j) := by
  induction hd with
  | refl => exact Or.inl h.left
  | @tail j k _ hjk ih =>
    have hmeet : c.Meets (.var j) (.var j) := ih.elim (·.symm.left) Meets.inside_meets
    rcases ht.dep hmeet hjk with hjm | hjin
    · exact ih.imp (·.trans hjm) (Meets.inside_right · hjm)
    · exact Or.inr (ih.elim (·.inside_left hjin) (·.trans hjin))

/-- Where the equation makes no type a part of itself, a type that a variable meets does not
lead back to the variable. -/
theorem Tracks.not_leadsBack (ht : c.Tracks uf) (hc : ¬ c.Circular) {v : ℕ} {t : Typ}
    (h : c.Meets (.var v) t) (hres : uf.Resolves t t) (hv : t.varIndex ≠ some v) :
    ∀ w ∈ t.targets v, ¬ ReflTransGen uf.Dep w v := by
  intro w hw hwv
  refine hc ⟨.var v, ?_⟩
  cases hi : t.varIndex with
  | none =>
    rw [Typ.targets_of_varIndex_none hi] at hw
    have hin : TransGen c.Encloses t (.var w) := by
      rcases h.symm.vars hw with hvar | hin
      · rw [hi] at hvar; cases hvar
      · exact hin
    have hvw := h.inside_left hin
    exact (ht.walk (Meets.inside_meets hvw) hwv).elim (Meets.inside_right hvw) hvw.trans
  | some k =>
    have hkv : k ≠ v := fun heq => hv (heq ▸ hi)
    rw [Typ.targets_link hi hkv] at hw
    obtain rfl := List.mem_singleton.mp hw
    have hvw : c.Meets (.var v) (.var w) := h.trans (h.symm.index hi)
    -- the way back leaves the unset variable through its fields
    rcases ReflTransGen.cases_head hwv with heq | ⟨j, ⟨e, he, hj⟩, hjv⟩
    · exact absurd heq hkv
    · obtain rfl := Option.some.inj (he.symm.trans (hres.unset hi))
      obtain ⟨fs, rfl, hfields⟩ := Typ.targets_self hi hj
      have hvj := h.inside_left (h.symm.fields (ht.unset _ _ he rfl) hfields)
      exact (ht.walk (Meets.inside_meets hvj) hjv).elim (Meets.inside_right hvj) hvj.trans

end Call

/-! ### The jobs of a run -/

namespace Call

/-- The types of the job meet. -/
def Compares (c : Call) : Job → Prop
  | .unify _ x y => c.Meets x y
  | .bind v t => c.Meets (.var v) t
  | .fail x y => c.Meets x y ∧ x ≠ y

/-- The types of the job are inside `x`. -/
def Inside (c : Call) (x : Typ) : Job → Prop
  | .unify _ y _ => TransGen c.Encloses x y
  | .bind v _ => TransGen c.Encloses x (.var v)
  | .fail _ _ => True

/-- Only the binding of a record variable waits for other jobs, those of its fields. -/
def Precedes (c : Call) (j k : Job) : Prop :=
  ∀ v t, k = .bind v t →
    c.Inside (.var v) j ∧ ∃ fs, c.store.inner[v]? = some (.recordVar v fs)

/-- No unset record variable gets inside its own fields. -/
def RecordsOpen (c : Call) : Prop :=
  ∀ v fs, c.store.inner[v]? = some (.recordVar v fs) →
    ¬ TransGen c.Encloses (.var v) (.var v)

/-- What holds between two jobs: bindings are still to be made as they were planned. -/
structure Follows (c : Call) (uf : UnionFind) (js : List Job) : Prop
    extends RunInv c.decls uf js where
  tracks : c.Tracks uf
  compares : ∀ j ∈ js, c.Compares j
  ready : ∀ v t, .bind v t ∈ js → uf.Unset v ∧ uf.Resolves t t ∧ t.varIndex ≠ some v
  nested : js.Pairwise c.Precedes

variable {c : Call} {uf uf₁ uf₂ uf' : UnionFind} {js : List Job} {a b : Typ} {r : Rule} {e : Bool}

/-- The jobs of an arm compare types that meet. -/
theorem Meets.compares (h : c.Meets a b) (harm : Arm c.decls.types a b r)
    (ha : c.store.Opens a) (hb : c.store.Opens b) : ∀ j ∈ r.jobs e a b, c.Compares j := by
  have hfields : ∀ {fa fb : Fields} {v : ℕ} {t : Typ},
      (∀ p ∈ (matchFields fa fb).1, c.Meets p.1 p.2) → c.Meets (.var v) t → a ≠ b →
      ∀ j ∈ (Rule.fields fa fb v t).jobs e a b, c.Compares j := by
    intro fa fb v t hp hv hne j hj
    simp only [Rule.jobs] at hj
    split at hj
    · obtain rfl := List.mem_singleton.mp hj
      exact ⟨h, hne⟩
    · rcases List.mem_append.mp hj with hj | hj
      · obtain ⟨p, hmem, rfl⟩ := List.mem_map.mp hj
        exact hp p hmem
      · obtain rfl := List.mem_singleton.mp hj
        cases (matchFields fa fb).2 with
        | true => exact hv
        | false => exact ⟨h, hne⟩
  cases harm with
  | same | neverLeft _ | neverRight _ => exact fun j hj => by cases hj
  | bindLeft _ _ hv =>
    intro j hj
    obtain rfl := List.mem_singleton.mp hj
    exact (h.index hv).symm.trans h
  | bindRight _ _ hv =>
    intro j hj
    obtain rfl := List.mem_singleton.mp hj
    exact (h.symm.index hv).symm.trans h.symm
  | @fieldsLeft v fa fb _ hne hf =>
    exact hfields (fun p hp => h.field (ha v rfl) hb hf (Or.inl hp)) ((h.index rfl).symm.trans h) hne
  | @fieldsRight v fa fb =>
    exact hfields (fun p hp => h.symm.field (hb v rfl) ha (.record fa) (Or.inr hp))
      ((h.symm.index rfl).symm.trans h.symm) (by simp)
  | @fieldsRightName v fa fb n as hf =>
    exact hfields (fun p hp => h.symm.field (hb v rfl) ha hf (Or.inl hp))
      ((h.symm.index rfl).symm.trans h.symm) (by simp)
  | names _ =>
    intro j hj
    obtain ⟨p, hp, rfl⟩ := List.mem_map.mp hj
    exact h.arg hp
  | functions _ =>
    intro j hj
    obtain ⟨p, hp, rfl⟩ := List.mem_map.mp hj
    rcases List.mem_append.mp hp with hp | hp
    · exact h.param hp
    · obtain rfl := List.mem_singleton.mp hp
      exact h.result
  | fail _ _ hne =>
    intro j hj
    obtain rfl := List.mem_singleton.mp hj
    exact ⟨h, hne⟩

/-- A job of an arm takes a part of `a`, or binds a variable that `a` meets. -/
theorem Meets.parts (h : c.Meets a b) (harm : Arm c.decls.types a b r)
    (ha : c.store.Opens a) (hb : c.store.Opens b) {j : Job} (hj : j ∈ r.jobs e a b) :
    (∃ e' p q, j = .unify e' p q ∧ c.Encloses a p) ∨
      (∃ v t, j = .bind v t ∧ c.Meets a (.var v)) ∨ ∃ x y, j = .fail x y := by
  have hfields : ∀ {fa fb : Fields} {v : ℕ} {t : Typ},
      (∀ f ∈ fa, c.Encloses a f.2) → c.Meets a (.var v) →
      j ∈ (Rule.fields fa fb v t).jobs e a b →
      (∃ e' p q, j = .unify e' p q ∧ c.Encloses a p) ∨
        (∃ v t, j = .bind v t ∧ c.Meets a (.var v)) ∨ ∃ x y, j = .fail x y := by
    intro fa fb v t hfa hv hj
    simp only [Rule.jobs] at hj
    split at hj
    · exact Or.inr (Or.inr ⟨a, b, List.mem_singleton.mp hj⟩)
    · rcases List.mem_append.mp hj with hj | hj
      · obtain ⟨p, hp, rfl⟩ := List.mem_map.mp hj
        obtain ⟨⟨f, hf, hfp⟩, -⟩ := mem_of_matchFields hp
        exact Or.inl ⟨false, p.1, p.2, rfl, hfp ▸ hfa f hf⟩
      · obtain rfl := List.mem_singleton.mp hj
        cases (matchFields fa fb).2 with
        | true => exact Or.inr (Or.inl ⟨v, t, rfl, hv⟩)
        | false => exact Or.inr (Or.inr ⟨a, b, rfl⟩)
  cases harm with
  | same | neverLeft _ | neverRight _ => cases hj
  | bindLeft _ _ hv =>
    exact Or.inr (Or.inl ⟨_, _, List.mem_singleton.mp hj, h.index hv⟩)
  | bindRight _ _ hv =>
    exact Or.inr (Or.inl ⟨_, _, List.mem_singleton.mp hj, h.trans (h.symm.index hv)⟩)
  | fieldsLeft _ _ =>
    exact hfields (fun f hf => h.encloses ha (List.mem_map_of_mem hf)) (h.index rfl) hj
  | fieldsRight =>
    exact hfields (fun f hf => h.encloses ha (List.mem_map_of_mem hf))
      (h.trans (h.symm.index rfl)) hj
  | fieldsRightName _ =>
    exact hfields (fun f hf => h.encloses_left (h.symm.encloses hb (List.mem_map_of_mem hf)))
      (h.trans (h.symm.index rfl)) hj
  | names _ =>
    obtain ⟨p, hp, rfl⟩ := List.mem_map.mp hj
    exact Or.inl ⟨e, p.1, p.2, rfl, h.encloses ha (List.of_mem_zip hp).1⟩
  | functions _ =>
    obtain ⟨p, hp, rfl⟩ := List.mem_map.mp hj
    refine Or.inl ⟨e, p.1, p.2, rfl, h.encloses ha ?_⟩
    rcases List.mem_append.mp hp with hp | hp
    · exact List.mem_cons_of_mem _ (List.of_mem_zip hp).1
    · obtain rfl := List.mem_singleton.mp hp
      exact List.mem_cons_self ..
  | fail => exact Or.inr (Or.inr ⟨a, b, List.mem_singleton.mp hj⟩)

/-- The jobs of an arm are inside whatever `a` is inside of. -/
theorem Meets.inside {x : Typ} (h : c.Meets a b) (harm : Arm c.decls.types a b r)
    (ha : c.store.Opens a) (hb : c.store.Opens b) (hx : TransGen c.Encloses x a) :
    ∀ j ∈ r.jobs e a b, c.Inside x j := by
  intro j hj
  obtain ⟨e', p, q, rfl, hp⟩ | ⟨v, t, rfl, hv⟩ | ⟨y, z, rfl⟩ := h.parts harm ha hb hj
  · exact hx.tail hp
  · exact Meets.inside_right hx hv
  · trivial

/-- The fields of a record variable are inside the variable that is bound after them. -/
theorem Meets.nested (h : c.Meets a b) (harm : Arm c.decls.types a b r)
    (ha : c.store.Opens a) (hb : c.store.Opens b) : (r.jobs e a b).Pairwise c.Precedes := by
  have hunify : ∀ {e' : Bool} {ps : List (Typ × Typ)}, (unifyJobs e' ps).Pairwise c.Precedes :=
    List.pairwise_map.mpr (List.pairwise_of_forall fun p q v t heq => nomatch heq)
  have hfields : ∀ {fa fb : Fields} {v : ℕ} {t : Typ}, r = .fields fa fb v t →
      (∃ fs, c.store.inner[v]? = some (.recordVar v fs)) → c.Meets a (.var v) →
      (r.jobs e a b).Pairwise c.Precedes := by
    intro fa fb v t hr hv hav
    have hparts := fun j => h.parts (j := j) (e := e) harm ha hb
    subst hr
    simp only [Rule.jobs] at hparts ⊢
    split
    · exact List.pairwise_singleton ..
    · rename_i hlen
      simp only [hlen, if_false] at hparts
      refine List.pairwise_append.mpr ⟨hunify, List.pairwise_singleton .., ?_⟩
      intro j hj k hk w u hku
      obtain rfl := List.mem_singleton.mp hk
      have hw : v = w := by
        cases hm : (matchFields fa fb).2 with
        | true => rw [hm] at hku; exact (Job.bind.inj hku).1
        | false => rw [hm] at hku; cases hku
      subst hw
      refine ⟨?_, hv⟩
      obtain ⟨e', p, q, rfl, hp⟩ | ⟨_, _, rfl, hw⟩ | ⟨_, _, rfl⟩ :=
        hparts j (List.mem_append_left _ hj)
      · exact .single (hav.symm.encloses_left hp)
      · obtain ⟨p, -, hp⟩ := List.mem_map.mp hj
        cases hp
      · trivial
  cases harm with
  | fieldsLeft _ _ => exact hfields rfl ⟨_, ha _ rfl⟩ (h.index rfl)
  | fieldsRight => exact hfields rfl ⟨_, hb _ rfl⟩ (h.trans (h.symm.index rfl))
  | fieldsRightName _ => exact hfields rfl ⟨_, hb _ rfl⟩ (h.trans (h.symm.index rfl))
  | names _ | functions _ => exact hunify
  | same | neverLeft _ | neverRight _ => exact .nil
  | bindLeft _ _ _ | bindRight _ _ _ | fail => exact List.pairwise_singleton ..

/-- The binding of an arm: one of the two types is a variable, the other its new type. -/
theorem bind_of_arm {types : TypeMap} {v : ℕ} {t : Typ} (h : Arm types a b r)
    (hj : .bind v t ∈ r.jobs e a b) :
    a ≠ b ∧ t ≠ .never ∧
      ((a.varIndex = some v ∧ t = b) ∨ (b.varIndex = some v ∧ t = a)) := by
  have hfields : ∀ {fa fb : Fields} {w : ℕ} {u : Typ},
      .bind v t ∈ (Rule.fields fa fb w u).jobs e a b → v = w ∧ t = u := by
    intro fa fb w u hj
    simp only [Rule.jobs] at hj
    split at hj
    · simp at hj
    · rcases List.mem_append.mp hj with hj | hj
      · obtain ⟨p, -, hp⟩ := List.mem_map.mp hj
        cases hp
      · cases hm : (matchFields fa fb).2 with
        | true =>
          simp only [hm, cond_true, List.mem_singleton, Job.bind.injEq] at hj
          exact hj
        | false => simp [hm] at hj
  cases h with
  | same | neverLeft _ | neverRight _ => cases hj
  | bindLeft hne hb hv =>
    obtain ⟨rfl, rfl⟩ := Job.bind.inj (List.mem_singleton.mp hj)
    exact ⟨hne, hb, Or.inl ⟨hv, rfl⟩⟩
  | bindRight hne ha hv =>
    obtain ⟨rfl, rfl⟩ := Job.bind.inj (List.mem_singleton.mp hj)
    exact ⟨hne, ha, Or.inr ⟨hv, rfl⟩⟩
  | fieldsLeft hne hb =>
    obtain ⟨rfl, rfl⟩ := hfields hj
    refine ⟨hne, fun hn => ?_, Or.inl ⟨rfl, rfl⟩⟩
    subst hn
    cases hb
  | fieldsRight =>
    obtain ⟨rfl, rfl⟩ := hfields hj
    exact ⟨by simp, by simp, Or.inr ⟨rfl, rfl⟩⟩
  | fieldsRightName _ =>
    obtain ⟨rfl, rfl⟩ := hfields hj
    exact ⟨by simp, by simp, Or.inr ⟨rfl, rfl⟩⟩
  | names _ | functions _ =>
    obtain ⟨p, -, hp⟩ := List.mem_map.mp hj
    cases hp
  | fail => simp [Rule.jobs] at hj

theorem Follows.unify {n m : ℕ} {x y : Typ} (h : c.Follows uf (.unify e x y :: js))
    (hx : uf.resolve n x = some (a, uf₁)) (hy : uf₁.resolve m y = some (b, uf₂))
    (hr : unifyArm c.decls.types a b = some r) : c.Follows uf₂ (r.jobs e a b ++ js) := by
  obtain ⟨hc, hxa, hyb, harm, hinv⟩ := h.toRunInv.unify hx hy hr
  have htracks := h.tracks.compressed hc
  have hxy : c.Meets x y := h.compares _ (List.mem_cons_self ..)
  have hma := h.tracks.resolves hxa hxy
  have hmb := h.tracks.resolves hyb hxy.symm
  have hab : c.Meets a b := hma.symm.trans (hxy.trans hmb)
  have ha := h.tracks.opens hxa
  have hb := h.tracks.opens hyb
  have hres : ∀ {u w : Typ}, uf.Resolves u w → uf₂.Resolves w w :=
    fun huw => (Resolves.compressed hc).mpr huw.idem
  obtain ⟨hfirst, hrest⟩ := List.pairwise_cons.mp h.nested
  refine ⟨hinv, htracks, fun j hj => ?_, fun v t hj => ?_, ?_⟩
  · rcases List.mem_append.mp hj with hj | hj
    · exact hab.compares harm ha hb j hj
    · exact h.compares j (List.mem_cons_of_mem _ hj)
  · rcases List.mem_append.mp hj with hj | hj
    · -- two unset variables of one index would be equal
      have hindex : ∀ {u w : Typ}, uf₂.Resolves u u → uf₂.Resolves w w → u ≠ w →
          u.varIndex = some v → w.varIndex ≠ some v := fun hu hw hne hui hwi =>
        hne (Option.some.inj ((hu.unset hui).symm.trans (hw.unset hwi)))
      obtain ⟨hne, -, ⟨hi, rfl⟩ | ⟨hi, rfl⟩⟩ := bind_of_arm harm hj
      · exact ⟨⟨a, (hres hxa).unset hi, hi⟩, hres hyb, hindex (hres hxa) (hres hyb) hne hi⟩
      · exact ⟨⟨b, (hres hyb).unset hi, hi⟩, hres hxa,
          hindex (hres hyb) (hres hxa) hne.symm hi⟩
    · obtain ⟨⟨u, hu, hui⟩, ht, hv⟩ := h.ready v t (List.mem_cons_of_mem _ hj)
      exact ⟨⟨u, (hc.unset v u hui).mpr hu, hui⟩, (Resolves.compressed hc).mpr ht, hv⟩
  · refine List.pairwise_append.mpr ⟨hab.nested harm ha hb, hrest, fun j hj k hk v t heq => ?_⟩
    obtain ⟨hin, hrec⟩ := hfirst k hk v t heq
    exact ⟨hab.inside harm ha hb (Meets.inside_right hin hma) j hj, hrec⟩

theorem Follows.bind {v : ℕ} {t : Typ} (hc : c.RecordsOpen)
    (h : c.Follows uf (.bind v t :: js)) : c.Follows (uf.set v t) js := by
  obtain ⟨-, -, hinv⟩ := h.toRunInv.bind
  obtain ⟨⟨u, hu, hui⟩, ht, hv⟩ := h.ready v t (List.mem_cons_self ..)
  have hvt : c.Meets (.var v) t := h.compares _ (List.mem_cons_self ..)
  obtain ⟨hfirst, hrest⟩ := List.pairwise_cons.mp h.nested
  refine ⟨hinv, h.tracks.set hvt hv, fun j hj => h.compares j (List.mem_cons_of_mem _ hj),
    fun w s hj => ?_, hrest⟩
  obtain ⟨⟨u', hu', hui'⟩, hs, hw⟩ := h.ready w s (List.mem_cons_of_mem _ hj)
  obtain ⟨hin, fs, hrec⟩ := hfirst _ hj w s rfl
  have hno := hc w fs hrec
  have hws : c.Meets (.var w) s := h.compares _ (List.mem_cons_of_mem _ hj)
  -- `v` is inside `w`, so neither `w` nor its new type is the variable that is bound now
  have hvw : v ≠ w := fun heq => hno (heq ▸ hin)
  have hsv : s.varIndex ≠ some v := fun hi =>
    hno (Meets.inside_right hin (hws.trans (hws.symm.index hi)).symm)
  refine ⟨⟨u', by rw [inner_set_ne hvw]; exact hu', hui'⟩, hs.set_other hu hui hsv, hw⟩

/-- The writes of a run that compares types that meet, and what it ends with. -/
theorem Follows.solve {log : List Binding} {s : Bool} {o : Outcome} (hc : c.RecordsOpen)
    (h : Solve c.decls.types uf js log s o uf') (hf : c.Follows uf js) :
    (∀ w ∈ log, ∃ js', c.Follows w.before (.bind w.var w.type :: js')) ∧ c.Tracks uf' ∧
      ∀ x y, o = .clash x y → c.Meets x y ∧ x ≠ y := by
  induction h with
  | nil uf => exact ⟨fun w hw => (nomatch hw), hf.tracks, fun x y ho => nomatch ho⟩
  | fail uf x y js =>
    refine ⟨fun w hw => (nomatch hw), hf.tracks, fun x' y' ho => ?_⟩
    obtain ⟨rfl, rfl⟩ := Outcome.clash.inj ho
    exact hf.compares _ (List.mem_cons_self ..)
  | bind _ ih =>
    obtain ⟨hlog, hend⟩ := ih (hf.bind hc)
    exact ⟨List.forall_mem_cons.mpr ⟨⟨_, hf⟩, hlog⟩, hend⟩
  | unify hx hy hr _ ih => exact ih (hf.unify hx hy hr)

/-- The call itself. -/
theorem follows_start (hv : c.store.Valid c.decls.types) (ha : c.store.Known c.decls.types c.a)
    (hb : c.store.Known c.decls.types c.b) : c.Follows c.store [.unify e c.a c.b] where
  valid := hv
  known j hj := by
    obtain rfl := List.mem_singleton.mp hj
    exact ⟨ha, hb⟩
  tracks := tracks_store c
  compares j hj := by
    obtain rfl := List.mem_singleton.mp hj
    exact .start
  ready v t hj := by simp at hj
  nested := List.pairwise_singleton ..

theorem recordsOpen_of_not_circular (hc : ¬ c.Circular) : c.RecordsOpen :=
  fun _ _ _ h => hc ⟨_, h⟩

end Call

end Roto.TypeChecker
