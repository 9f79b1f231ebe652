import RotoCompiler.TypeChecker.Meets

/-!
# When unification keeps the store acyclic

Every write of a run is in its log. A write makes a cycle exactly when the new type
leads back to the variable in the store before the write; such a binding is called
self-referring. A call whose equation makes no type a part of itself makes no such binding,
so as long as every call is one of these, all states are acyclic and `find`, `resolve` and
`convert` return. Nothing in `unify_inner` rules the other calls out: there is no occurs
check.
-/

namespace Roto.TypeChecker
open Relation UnionFind

namespace Binding

/-- The store after the write. -/
def after (b : Binding) : UnionFind := b.before.set b.var b.type

/-- The new type leads back to the variable that it is bound to. -/
def SelfReferring (b : Binding) : Prop :=
  ∃ y ∈ b.type.targets b.var, ReflTransGen b.before.Dep y b.var

end Binding

theorem Solve.valid {D : Declarations} {uf uf' : UnionFind} {js : List Job}
    {log : List Binding} {s : Bool} {o : Outcome} (h : Solve D.types uf js log s o uf')
    (hinv : RunInv D uf js) : uf'.Valid D.types ∧ uf'.inner.length = uf.inner.length := by
  induction h with
  | nil uf => exact ⟨hinv.valid, rfl⟩
  | fail uf a b js => exact ⟨hinv.valid, rfl⟩
  | bind _ ih =>
    obtain ⟨hvalid, hlen⟩ := ih hinv.bind.2.2
    exact ⟨hvalid, hlen.trans (length_set _ _)⟩
  | unify hra hrb hr _ ih =>
    obtain ⟨hc, -, -, -, hinv'⟩ := hinv.unify hra hrb hr
    obtain ⟨hvalid, hlen⟩ := ih hinv'
    exact ⟨hvalid, hlen.trans hc.length⟩

/-- One run of unification from an acyclic store: its writes keep the store acyclic
exactly when none of them is self-referring. -/
theorem Solve.acyclic_iff {D : Declarations} {uf uf' : UnionFind} {js : List Job}
    {log : List Binding} {s : Bool} {o : Outcome} (h : Solve D.types uf js log s o uf')
    (hinv : RunInv D uf js) (ha : uf.Acyclic) :
    ((∀ b ∈ log, b.after.Acyclic) ↔ ∀ b ∈ log, ¬ b.SelfReferring) ∧
      ((∀ b ∈ log, ¬ b.SelfReferring) → uf'.Acyclic) := by
  induction h with
  | nil uf => exact ⟨by simp, fun _ => ha⟩
  | fail uf a b js => exact ⟨by simp, fun _ => ha⟩
  | @bind uf uf' v t js log s o _ ih =>
    obtain ⟨hv, -, hinv'⟩ := hinv.bind
    have hstep : (Binding.after ⟨uf, v, t⟩).Acyclic ↔ ¬ Binding.SelfReferring ⟨uf, v, t⟩ := by
      rw [Binding.after, acyclic_set_iff ha hv]
      exact ⟨fun h ⟨y, hy, hyv⟩ => h y hy hyv, fun h y hy hyv => h ⟨y, hy, hyv⟩⟩
    simp only [List.forall_mem_cons]
    by_cases hself : Binding.SelfReferring ⟨uf, v, t⟩
    · -- both sides fail at this write; the rest of the run does not matter
      exact ⟨⟨fun h => absurd hself (hstep.mp h.1), fun h => absurd hself h.1⟩,
        fun h => absurd hself h.1⟩
    · obtain ⟨hiff, hfin⟩ := ih hinv' (hstep.mpr hself)
      rw [hiff]
      exact ⟨and_congr_left fun _ => hstep, fun h => hfin h.2⟩
  | unify hra hrb hr _ ih =>
    obtain ⟨hc, -, -, -, hinv'⟩ := hinv.unify hra hrb hr
    exact ih hinv' (hc.acyclic ha)

/-! ### Runs of all operations -/

/-- The operations of the checker on its store. -/
inductive Op where
  | freshVar
  | freshInt
  | freshFloat
  | freshRecord (fields : Fields)
  /-- negation marks an unset integer variable -/
  | mustBeSigned (n : ℕ)
  | resolve (t : Typ)
  | unify (a b : Typ)

/-- One operation: the writes of unification and the store afterwards. The types are those
the checker can hold: variables that exist, declared names, no explicit variables. -/
inductive Step (D : Declarations) : UnionFind → Op → List Binding → UnionFind → Prop where
  | freshVar (uf : UnionFind) : Step D uf .freshVar [] (uf.fresh .var).2
  | freshInt (uf : UnionFind) : Step D uf .freshInt [] (uf.fresh fun n => .intVar n .no).2
  | freshFloat (uf : UnionFind) : Step D uf .freshFloat [] (uf.fresh .floatVar).2
  | freshRecord {uf : UnionFind} {fields : Fields} (hf : ∀ f ∈ fields, uf.Known D.types f.2) :
      Step D uf (.freshRecord fields) [] (uf.fresh fun n => .recordVar n fields).2
  | mustBeSigned {uf : UnionFind} {n : ℕ} (hn : uf.inner[n]? = some (.intVar n .no)) :
      Step D uf (.mustBeSigned n) [] (uf.set n (.intVar n .yes))
  | resolve {uf uf' : UnionFind} {t r : Typ} {fuel : ℕ} (ht : uf.Known D.types t)
      (h : uf.resolve fuel t = some (r, uf')) : Step D uf (.resolve t) [] uf'
  | unify {uf uf₁ uf' : UnionFind} {a b : Typ} {fuel : ℕ} {r : Except (Typ × Typ) Typ}
      {log : List Binding} {s : Bool} {o : Outcome} (ha : uf.Known D.types a)
      (hb : uf.Known D.types b) (hs : Solve D.types uf [.unify true a b] log s o uf₁)
      (h : TypeChecker.unify D.types fuel uf a b = some (r, uf')) : Step D uf (.unify a b) log uf'

/-- The runs from the empty store, with the writes of all their unifications. -/
inductive Run (D : Declarations) : List Op → List Binding → UnionFind → Prop where
  | start : Run D [] [] .empty
  | step {ops : List Op} {log log' : List Binding} {uf uf' : UnionFind} {op : Op}
      (h : Run D ops log uf) (hs : Step D uf op log' uf') :
      Run D (ops ++ [op]) (log ++ log') uf'

/-- A call of `unify` makes no type a part of itself: what an occurs check would find out. -/
def Op.NonCircular (D : Declarations) (uf : UnionFind) : Op → Prop
  | .unify a b => ¬ (⟨D, uf, a, b⟩ : Call).Circular
  | _ => True

/-- The runs in which no call does, each seen in the store before it. -/
inductive CheckedRun (D : Declarations) : List Op → List Binding → UnionFind → Prop where
  | start : CheckedRun D [] [] .empty
  | step {ops : List Op} {log log' : List Binding} {uf uf' : UnionFind} {op : Op}
      (h : CheckedRun D ops log uf) (hs : Step D uf op log' uf') (hop : op.NonCircular D uf) :
      CheckedRun D (ops ++ [op]) (log ++ log') uf'

section
variable {D : Declarations} {uf uf₁ uf' : UnionFind}

/-- `unify` leaves the store of its run, up to path compression. -/
theorem compressed_of_unify {a b : Typ} {fuel : ℕ} {r : Except (Typ × Typ) Typ}
    {log : List Binding} {s e : Bool} {o : Outcome}
    (hs : Solve D.types uf [.unify e a b] log s o uf₁)
    (h : unify D.types fuel uf a b = some (r, uf')) :
    uf₁.Compressed uf' ∧ (r.toBool = o.isOk) := by
  obtain ⟨fuel', q, hq, hqo⟩ := hs.unifyInner
  have hq' := unifyInner_mono D.types (Nat.le_max_left fuel' fuel) _ _ _ _ hq
  simp only [unify] at h
  rcases hu : unifyInner D.types fuel uf a b with _ | ⟨_ | t, uf₂⟩
  · simp [hu] at h
  · -- the error looks both types up once more
    have hu' := unifyInner_mono D.types (Nat.le_max_right fuel' fuel) _ _ _ _ hu
    obtain ⟨rfl, rfl⟩ := Prod.mk.inj (Option.some.inj (hq'.symm.trans hu'))
    simp only [hu] at h
    cases ha : uf₁.resolve fuel a with
    | none => simp [ha] at h
    | some p =>
      obtain ⟨a', uf₃⟩ := p
      simp only [ha] at h
      cases hb : uf₃.resolve fuel b with
      | none => simp [hb] at h
      | some q =>
        obtain ⟨b', uf₄⟩ := q
        simp only [hb, Option.some.injEq, Prod.mk.injEq] at h
        obtain ⟨rfl, rfl⟩ := h
        exact ⟨(resolve_spec ha).2.trans (resolve_spec hb).2, by rw [← hqo]; rfl⟩
  · have hu' := unifyInner_mono D.types (Nat.le_max_right fuel' fuel) _ _ _ _ hu
    obtain ⟨rfl, rfl⟩ := Prod.mk.inj (Option.some.inj (hq'.symm.trans hu'))
    simp only [hu, Option.some.injEq, Prod.mk.injEq] at h
    obtain ⟨rfl, rfl⟩ := h
    exact ⟨.refl uf₁, by rw [← hqo]; rfl⟩

/-- Marking an unset integer variable changes no edge. -/
theorem acyclic_mustBeSigned {n : ℕ} (ha : uf.Acyclic)
    (hn : uf.inner[n]? = some (.intVar n .no)) : (uf.set n (.intVar n .yes)).Acyclic := by
  have hlt : n < uf.inner.length := (List.getElem?_eq_some_iff.mp hn).1
  rw [acyclic_set_iff ha hlt]
  intro y hy
  simp [Typ.targets] at hy

theorem Step.acyclic_iff {op : Op} {log : List Binding} (h : Step D uf op log uf')
    (hv : uf.Valid D.types) (ha : uf.Acyclic) :
    ((∀ b ∈ log, b.after.Acyclic) ↔ ∀ b ∈ log, ¬ b.SelfReferring) ∧
      ((∀ b ∈ log, ¬ b.SelfReferring) → uf'.Acyclic) := by
  have hfresh : ∀ f : ℕ → Typ, (∀ j ∈ (f uf.inner.length).targets uf.inner.length,
      j < uf.inner.length) → (uf.fresh f).2.Acyclic :=
    fun f hf => (ha.fresh hv.scoped f hf).1
  cases h with
  | freshVar => exact ⟨by simp, fun _ => hfresh _ (by simp [Typ.targets])⟩
  | freshInt => exact ⟨by simp, fun _ => hfresh _ (by simp [Typ.targets])⟩
  | freshFloat => exact ⟨by simp, fun _ => hfresh _ (by simp [Typ.targets])⟩
  | @freshRecord fields hf =>
    refine ⟨by simp, fun _ => hfresh _ fun j hj => ?_⟩
    simp only [Typ.targets, if_true] at hj
    obtain ⟨f, hmem, hj⟩ := Typ.mem_varsFields.mp hj
    exact Typ.vars_lt (hf f hmem) j hj
  | mustBeSigned hn => exact ⟨by simp, fun _ => acyclic_mustBeSigned ha hn⟩
  | resolve _ h => exact ⟨by simp, fun _ => (resolve_spec h).2.acyclic ha⟩
  | unify hka hkb hs h =>
    have hinv : RunInv D uf [.unify true _ _] :=
      ⟨hv, fun j hj => by obtain rfl := List.mem_singleton.mp hj; exact ⟨hka, hkb⟩⟩
    obtain ⟨hiff, hfin⟩ := hs.acyclic_iff hinv ha
    exact ⟨hiff, fun hn => (compressed_of_unify hs h).1.acyclic (hfin hn)⟩

theorem Step.valid {op : Op} {log : List Binding} (h : Step D uf op log uf')
    (hv : uf.Valid D.types) : uf'.Valid D.types := by
  cases h with
  | freshVar => exact hv.fresh (by simp [Typ.wellFormed])
  | freshInt => exact hv.fresh (by simp [Typ.wellFormed])
  | freshFloat => exact hv.fresh (by simp [Typ.wellFormed])
  | freshRecord hf =>
    refine hv.fresh (Typ.wellFormed_recordVar.mpr ⟨Nat.lt_succ_self _, fun f hmem => ?_⟩)
    exact Typ.wellFormed_mono (fun k hk => ⟨_, rfl, by
      obtain rfl := Option.some.inj hk
      exact Nat.le_succ _⟩) (fun _ hp => hp) (hf f hmem)
  | mustBeSigned hn =>
    refine hv.set ?_
    have hlt := (List.getElem?_eq_some_iff.mp hn).1
    simpa [Known, Typ.wellFormed] using hlt
  | resolve _ h => exact (resolve_spec h).2.valid hv
  | unify hka hkb hs h =>
    have hinv : RunInv D uf [.unify true _ _] :=
      ⟨hv, fun j hj => by obtain rfl := List.mem_singleton.mp hj; exact ⟨hka, hkb⟩⟩
    exact (compressed_of_unify hs h).1.valid (hs.valid hinv).1

theorem Run.valid {ops : List Op} {log : List Binding} (h : Run D ops log uf) :
    uf.Valid D.types := by
  induction h with
  | start => exact fun t ht => nomatch ht
  | step _ hs ih => exact hs.valid ih

theorem acyclic_empty : UnionFind.empty.Acyclic := by
  intro i hi
  obtain ⟨j, ⟨t, ht, -⟩, -⟩ := TransGen.head'_iff.mp hi
  simp [UnionFind.empty] at ht

/-- A whole run: the writes keep the store acyclic exactly when none is self-referring. -/
theorem Run.acyclic_iff {ops : List Op} {log : List Binding} (h : Run D ops log uf) :
    ((∀ b ∈ log, b.after.Acyclic) ↔ ∀ b ∈ log, ¬ b.SelfReferring) ∧
      ((∀ b ∈ log, ¬ b.SelfReferring) → uf.Acyclic) := by
  induction h with
  | start => exact ⟨by simp, fun _ => acyclic_empty⟩
  | @step ops log log' uf uf' op hrun hs ih =>
    obtain ⟨hiff, hfin⟩ := ih
    simp only [List.forall_mem_append]
    by_cases hself : ∀ b ∈ log, ¬ b.SelfReferring
    · obtain ⟨hiff', hfin'⟩ := hs.acyclic_iff hrun.valid (hfin hself)
      exact ⟨and_congr hiff hiff', fun hn => hfin' hn.2⟩
    · exact ⟨⟨fun hn => absurd (hiff.mp hn.1) hself, fun hn => absurd hn.1 hself⟩,
        fun hn => absurd hn.1 hself⟩

/-! ### Lookups and conversions return -/

/-- The declarations mention each other in no cycle, type arguments included. -/
def Declarations.NonRecursive (D : Declarations) : Prop :=
  WellFounded fun m n => Mention D.types n m

/-- In an acyclic store the expansion of every type is a finite tree. -/
theorem convertible_of_acyclic (hD : D.NonRecursive) (hv : uf.Valid D.types) (ha : uf.Acyclic)
    {t : Typ} (ht : uf.Known D.types t) : Convertible D.types uf t := by
  have hexp := expandable_of_wellFounded D uf hD
  refine convertible_of_vars hexp ht fun i hi => ?_
  refine ha.root_induction (P := fun i => Convertible D.types uf (.var i)) hv.scoped
    (fun i r hr ih => ?_) i (Typ.vars_lt ht i hi)
  refine .mk (Or.inr ⟨i, rfl, hr⟩) fun c hc => ?_
  have hknown := hv.root hr
  cases r with
  | recordVar n fs =>
    obtain ⟨f, hf, rfl⟩ := List.mem_map.mp hc
    exact convertible_of_vars hexp ((Typ.wellFormed_recordVar.mp hknown).2 f hf) fun y hy =>
      ih y (Typ.mem_varsFields.mpr ⟨f, hf, hy⟩)
  | var _ | intVar _ _ | floatVar _ => cases hc
  | _ =>
    obtain ⟨hr', hparts⟩ := convertible_of_vars hexp hknown ih
    obtain rfl := Resolves.unique hr' (Or.inl ⟨rfl, rfl⟩)
    exact hparts c hc

/-! ### Calls that make no type a part of itself -/

/-- A run in such a call makes no binding that refers to itself. -/
theorem Call.Follows.not_selfReferring {c : Call} {js : List Job} {log : List Binding} {s : Bool}
    {o : Outcome} (hc : ¬ c.Circular) (hf : c.Follows uf js)
    (h : Solve c.decls.types uf js log s o uf') : ∀ w ∈ log, ¬ w.SelfReferring := by
  intro w hw
  obtain ⟨js', hf'⟩ := (Call.Follows.solve (Call.recordsOpen_of_not_circular hc) h hf).1 w hw
  obtain ⟨-, hres, hne⟩ := hf'.ready _ _ (List.mem_cons_self ..)
  have hmeet := hf'.compares _ (List.mem_cons_self ..)
  rintro ⟨y, hy, hyv⟩
  exact hf'.tracks.not_leadsBack hc hmeet hres hne y hy hyv

theorem Step.not_selfReferring {op : Op} {log : List Binding} (h : Step D uf op log uf')
    (hv : uf.Valid D.types) (hop : op.NonCircular D uf) : ∀ b ∈ log, ¬ b.SelfReferring := by
  cases h with
  | freshVar | freshInt | freshFloat | freshRecord _ | mustBeSigned _ | resolve _ _ =>
    exact fun b hb => nomatch hb
  | @unify _ _ a b _ _ _ _ _ hka hkb hs _ =>
    have hstart : (⟨D, uf, a, b⟩ : Call).Follows uf [.unify true a b] :=
      Call.follows_start hv hka hkb
    exact hstart.not_selfReferring hop hs

theorem CheckedRun.run {ops : List Op} {log : List Binding} (h : CheckedRun D ops log uf) :
    Run D ops log uf := by
  induction h with
  | start => exact .start
  | step _ hs _ ih => exact .step ih hs

theorem CheckedRun.not_selfReferring {ops : List Op} {log : List Binding}
    (h : CheckedRun D ops log uf) : ∀ b ∈ log, ¬ b.SelfReferring := by
  induction h with
  | start => exact fun b hb => nomatch hb
  | step hrun hs hop ih =>
    exact List.forall_mem_append.mpr ⟨ih, hs.not_selfReferring hrun.run.valid hop⟩

/-- After any run of such calls every write has kept the store acyclic, it is acyclic now, and
lookups and conversions return. -/
theorem checkedRun_acyclic {ops : List Op} {log : List Binding} (h : CheckedRun D ops log uf) :
    (∀ b ∈ log, b.after.Acyclic) ∧ uf.Acyclic ∧
      (∀ i < uf.inner.length, ∃ fuel r, uf.find fuel i = some r) ∧
      (∀ t, uf.Known D.types t → ∃ fuel r, uf.resolve fuel t = some r) ∧
      (D.NonRecursive → ∀ t, uf.Known D.types t → ∃ fuel r, convert D.types fuel uf t = some r) := by
  obtain ⟨hiff, hfin⟩ := h.run.acyclic_iff
  have hvalid := h.run.valid
  have hac := hfin h.not_selfReferring
  refine ⟨hiff.mpr h.not_selfReferring, hac, fun i hi => ?_, fun t ht => ?_, fun hD t ht => ?_⟩
  · obtain ⟨fuel, t, uf', hf⟩ := hac.find hvalid.scoped hi
    exact ⟨fuel, _, hf⟩
  · obtain ⟨r, hr⟩ := hac.resolves hvalid.scoped ht.inScope
    obtain ⟨fuel, uf', hf⟩ := resolve_of_resolves hr
    exact ⟨fuel, _, hf⟩
  · obtain ⟨fuel, r, hr, -⟩ :=
      (convertible_of_acyclic hD hvalid hac ht).returns uf (.refl uf)
    exact ⟨fuel, r, hr⟩

end

/-! ### `let x = []; x.push(());` and `let x = []; x.push(x);` -/

/-- The builtin type of lists alone. -/
def listOnly : Declarations where
  types := [(⟨0, "List"⟩, .list ⟨⟨0, "List"⟩, [.explicitVar "T"]⟩)]
  wellFormed := by decide

/-- The element type of the empty list and `()` have no parts. -/
theorem push_unit_not_circular :
    ¬ (⟨listOnly, ⟨[.var 0]⟩, .var 0, .unit⟩ : Call).Circular := by
  have hfields : ∀ t ∈ [Typ.var 0, .unit], ∀ fs, FieldsOf listOnly.types t fs →
      ∀ f ∈ fs, f.2 ∈ [Typ.var 0, .unit] := by
    intro t ht fs hfs
    cases hfs <;> simp at ht
  refine Call.not_circular_of_leaves fun x y h => ?_
  have hmem := (h.mem_of_closed (S := [.var 0, .unit]) (by decide) (by decide) (by decide)
    (by decide) hfields).2
  have hnone : ∀ t ∈ [Typ.var 0, .unit], t.children = [] := by decide
  exact hnone y hmem

theorem checkedRun_push_unit : CheckedRun listOnly [.freshVar, .unify (.var 0) .unit]
    [⟨⟨[.var 0]⟩, 0, .unit⟩] ⟨[.unit]⟩ := by
  have hs : Solve listOnly.types ⟨[.var 0]⟩ [.unify true (.var 0) .unit]
      [⟨⟨[.var 0]⟩, 0, .unit⟩] false .ok ⟨[.unit]⟩ :=
    .unify (n := 1) (m := 0) (r := .bind 0 .unit) rfl rfl rfl (.bind (.nil _))
  exact .step (.step .start (.freshVar _) trivial)
    (.unify (by decide) (by decide) hs (rfl : unify listOnly.types 2 _ _ _ = _))
    push_unit_not_circular

theorem checkedRun_push_unit_acyclic :
    (∀ b ∈ [(⟨⟨[.var 0]⟩, 0, .unit⟩ : Binding)], b.after.Acyclic) ∧
      UnionFind.Acyclic ⟨[.unit]⟩ ∧
      (∀ i < 1, ∃ fuel r, UnionFind.find fuel ⟨[.unit]⟩ i = some r) ∧
      (∀ t, UnionFind.Known ⟨[.unit]⟩ listOnly.types t →
        ∃ fuel r, UnionFind.resolve fuel ⟨[.unit]⟩ t = some r) ∧
      (listOnly.NonRecursive → ∀ t, UnionFind.Known ⟨[.unit]⟩ listOnly.types t →
        ∃ fuel r, convert listOnly.types fuel ⟨[.unit]⟩ t = some r) :=
  checkedRun_acyclic checkedRun_push_unit

/-- The list of the element type. -/
def listOfVar : Typ := .name ⟨0, "List"⟩ [.var 0]

/-- The element type of an empty list is unified with the type of the list. -/
theorem run_push_to_itself : Run listOnly [.freshVar, .unify (.var 0) listOfVar]
    [⟨⟨[.var 0]⟩, 0, listOfVar⟩] ⟨[listOfVar]⟩ := by
  have hs : Solve listOnly.types ⟨[.var 0]⟩ [.unify true (.var 0) listOfVar]
      [⟨⟨[.var 0]⟩, 0, listOfVar⟩] false .ok ⟨[listOfVar]⟩ :=
    .unify (n := 1) (m := 0) (r := .bind 0 listOfVar) rfl rfl rfl (.bind (.nil _))
  exact .step (.step .start (.freshVar _)) (.unify (by decide) (by decide) hs
    (rfl : unify listOnly.types 2 _ _ _ = _))

/-- Afterwards the variable is bound to a type that contains it, and its conversion never
returns. -/
theorem push_to_itself_cyclic :
    Run listOnly [.freshVar, .unify (.var 0) listOfVar]
        [⟨⟨[.var 0]⟩, 0, listOfVar⟩] ⟨[listOfVar]⟩ ∧
      ¬ UnionFind.Acyclic ⟨[listOfVar]⟩ ∧
      ∀ fuel, convert listOnly.types fuel ⟨[listOfVar]⟩ (.var 0) = none := by
  refine ⟨run_push_to_itself, fun h => h 0 (.single ⟨listOfVar, rfl, by decide⟩), fun fuel => ?_⟩
  induction fuel with
  | zero => rfl
  | succ fuel ih =>
    cases fuel with
    | zero => rfl
    | succ n =>
      -- one unfolding comes back to the same variable
      have hstep : convert listOnly.types (n + 2) ⟨[listOfVar]⟩ (.var 0) =
        (convert listOnly.types (n + 1) ⟨[listOfVar]⟩ (.var 0)).map .list := rfl
      rw [hstep, ih]
      rfl

end Roto.TypeChecker
