import RotoCompiler.TypeChecker.Convert

/-!
# Cycle detection for type declarations (typechecker/type_cycle.rs)

`detectTypeCycles` is a depth-first search over the names of declared types. It looks at
the head of a field's type and at the fields of an anonymous record, never at type
arguments. `convert` on the other hand goes into every argument that the definition of
the head uses. The two are compared through the graph of mentions: `Direct` edges are
those that the search follows, `ArgMention` edges those that it does not.
-/

namespace Roto.TypeChecker
open Relation

/-- The marks of the search: `false` is a temporary mark, `true` a permanent one. -/
abbrev Visited := ResolvedName → Option Bool

def Visited.insert (visited : Visited) (name : ResolvedName) (mark : Bool) : Visited :=
  fun m => if m = name then some mark else visited m

/-- The answer of a search and its marks; `none` when the fuel runs out or a name is not
declared. -/
abbrev VisitResult := Option (Except String Visited)

mutual
/-- `visit`. -/
def visit (visitName : Visited → ResolvedName → VisitResult) : Typ → Visited → VisitResult
  | .var _, _ => some (.error "there should be no unresolved type variables left")
  | .intVar _ _, _ => some (.error "there should be no unresolved type variables left")
  | .floatVar _, _ => some (.error "there should be no unresolved type variables left")
  | .recordVar _ _, _ => some (.error "there should be no unresolved type variables left")
  | .never, visited => some (.ok visited)
  | .unit, visited => some (.ok visited)
  | .function _ _, visited => some (.ok visited)
  | .explicitVar _, visited => some (.ok visited)
  | .record fields, visited => visitFields visitName fields visited
  | .name name _, visited => visitName visited name

def visitFields (visitName : Visited → ResolvedName → VisitResult) :
    List (Meta Identifier × Typ) → Visited → VisitResult
  | [], visited => some (.ok visited)
  | (_, ty) :: fields, visited =>
    match visit visitName ty visited with
    | none => none
    | some (.error e) => some (.error e)
    | some (.ok visited) => visitFields visitName fields visited
end

/-- The loops of `visit_name` over the types of all fields. -/
def visitAll (visitName : Visited → ResolvedName → VisitResult) :
    List Typ → Visited → VisitResult
  | [], visited => some (.ok visited)
  | ty :: tys, visited =>
    match visit visitName ty visited with
    | none => none
    | some (.error e) => some (.error e)
    | some (.ok visited) => visitAll visitName tys visited

/-- `visit_name`. -/
def visitName (types : TypeMap) : ℕ → Visited → ResolvedName → VisitResult
  | 0, _, _ => none
  | fuel + 1, visited, name =>
    match visited name with
    | some false => some (.error "cycle detected!")
    | some true => some (.ok visited)
    | none =>
      match types.resolveTypeName name with
      | none => none
      | some d =>
        match visitAll (visitName types fuel) d.fieldTypes (visited.insert name false) with
        | none => none
        | some (.error e) => some (.error e)
        | some (.ok visited) => some (.ok (visited.insert name true))

/-- The loop of `detect_type_cycles` over the keys, in whatever order the map has them. -/
def visitKeys (types : TypeMap) (fuel : ℕ) : List ResolvedName → Visited → VisitResult
  | [], visited => some (.ok visited)
  | name :: keys, visited =>
    match visitName types fuel visited name with
    | none => none
    | some (.error e) => some (.error e)
    | some (.ok visited) => visitKeys types fuel keys visited

/-- `detect_type_cycles`. -/
def detectTypeCycles (types : TypeMap) (fuel : ℕ) (keys : List ResolvedName) :
    Option (Except String Unit) :=
  (visitKeys types fuel keys fun _ => none).map fun r => r.map fun _ => ()

/-! ### Mentions -/

/-- The conversion of `t` reaches its subterm `s`; the mark says whether it goes through a
type argument on the way. It goes into the argument of a list, and into those arguments
of another name that a field of its definition reaches. -/
inductive Occurs (types : TypeMap) : Bool → Typ → Typ → Prop where
  | here (t : Typ) : Occurs types false t t
  | field {b : Bool} {fs : Fields} {f : Meta Identifier × Typ} {s : Typ} (hf : f ∈ fs)
      (h : Occurs types b f.2 s) : Occurs types b (.record fs) s
  | listArg {b : Bool} {m : ResolvedName} {d : TypeDefinition} {as : List Typ} {a s : Typ}
      (hd : types.resolveTypeName m = some d) (hl : d.isList = true) (ha : as[0]? = some a)
      (h : Occurs types b a s) : Occurs types true (.name m as) s
  | arg {b c : Bool} {m : ResolvedName} {d : TypeDefinition} {as : List Typ} {i : ℕ}
      {p : Identifier} {t a s : Typ} (hd : types.resolveTypeName m = some d)
      (ht : t ∈ d.fieldTypes) (hu : Occurs types c t (.explicitVar p))
      (hp : d.params[i]? = some p) (ha : as[i]? = some a) (h : Occurs types b a s) :
      Occurs types true (.name m as) s

/-- The conversion of a type named `n` reaches the argument for the parameter `p`. -/
def Uses (types : TypeMap) (n : ResolvedName) (p : Identifier) : Prop :=
  ∃ d, types.resolveTypeName n = some d ∧
    ((d.isList = true ∧ d.params[0]? = some p) ∨
      ∃ t ∈ d.fieldTypes, ∃ b, Occurs types b t (.explicitVar p))

theorem Uses.occurs {types : TypeMap} {b : Bool} {m : ResolvedName} {d : TypeDefinition}
    {as : List Typ} {i : ℕ} {p : Identifier} {a s : Typ} (hu : Uses types m p)
    (hd : types.resolveTypeName m = some d) (hnodup : d.params.Nodup)
    (hp : d.params[i]? = some p) (ha : as[i]? = some a) (h : Occurs types b a s) :
    Occurs types true (.name m as) s := by
  obtain ⟨d', hd', hu⟩ := hu
  rw [hd] at hd'
  obtain rfl := Option.some.inj hd'
  rcases hu with ⟨hl, hp₀⟩ | ⟨t, ht, c, hc⟩
  · obtain ⟨h₀, hget₀⟩ := List.getElem?_eq_some_iff.mp hp₀
    obtain ⟨hi, hget⟩ := List.getElem?_eq_some_iff.mp hp
    obtain rfl : i = 0 := (hnodup.getElem_inj_iff).mp (hget.trans hget₀.symm)
    exact .listArg hd hl ha h
  · exact .arg hd ht hc hp ha h

/-- A field of `n` mentions `m`; the mark says whether inside a used type argument. -/
def MentionAt (types : TypeMap) (b : Bool) (n m : ResolvedName) : Prop :=
  ∃ d t as, types.resolveTypeName n = some d ∧ t ∈ d.fieldTypes ∧ Occurs types b t (.name m as)

def Direct (types : TypeMap) : ResolvedName → ResolvedName → Prop := MentionAt types false

def ArgMention (types : TypeMap) : ResolvedName → ResolvedName → Prop := MentionAt types true

def Mention (types : TypeMap) (n m : ResolvedName) : Prop := ∃ b, MentionAt types b n m

variable {types : TypeMap}

/-! ### What an accepting search has shown -/

/-- Permanent marks only where no infinite path of direct mentions starts. -/
def Visited.Sound (types : TypeMap) (visited : Visited) : Prop :=
  ∀ n, visited n = some true → Acc (fun m n => Direct types n m) n

/-- The permanent marks stay. -/
def Visited.Le (v v' : Visited) : Prop := ∀ n, v n = some true → v' n = some true

/-- What a search from a name guarantees when it accepts. -/
def VisitSpec (types : TypeMap) (f : Visited → ResolvedName → VisitResult) : Prop :=
  ∀ v n v', v.Sound types → f v n = some (.ok v') → v'.Sound types ∧ v' n = some true ∧ v.Le v'

theorem visit_spec {f : Visited → ResolvedName → VisitResult} (hf : VisitSpec types f)
    (t : Typ) : ∀ {v v' : Visited}, v.Sound types → visit f t v = some (.ok v') →
      v'.Sound types ∧ v.Le v' ∧ ∀ m as, Occurs types false t (.name m as) → v' m = some true := by
  induction t with
  | var _ | intVar _ _ | floatVar _ | recordVar _ _ _ =>
    intro v v' _ h
    simp [visit] at h
  | never | unit | function _ _ _ _ | explicitVar _ =>
    intro v v' hv h
    simp only [visit, Option.some.injEq, Except.ok.injEq] at h
    subst h
    exact ⟨hv, fun _ h => h, fun m as ho => nomatch ho⟩
  | name n as =>
    intro v v' hv h
    simp only [visit] at h
    obtain ⟨hs, ht, hle⟩ := hf v n v' hv h
    refine ⟨hs, hle, fun m bs ho => ?_⟩
    cases ho
    exact ht
  | record fs ih =>
    intro v v' hv h
    simp only [visit] at h
    have key : v'.Sound types ∧ v.Le v' ∧
        ∀ g ∈ fs, ∀ m as, Occurs types false g.2 (.name m as) → v' m = some true := by
      induction fs generalizing v with
      | nil =>
        simp only [visitFields, Option.some.injEq, Except.ok.injEq] at h
        subst h
        exact ⟨hv, fun _ h => h, fun _ hg => nomatch hg⟩
      | cons g fs ihf =>
        simp only [visitFields] at h
        rcases hg : visit f g.2 v with _ | _ | v₁
        · simp [hg] at h
        · simp [hg] at h
        · simp only [hg] at h
          obtain ⟨hs₁, hle₁, ho₁⟩ := ih g (List.mem_cons_self ..) hv hg
          obtain ⟨hs₂, hle₂, ho₂⟩ := ihf (fun x hx => ih x (List.mem_cons_of_mem _ hx)) hs₁ h
          refine ⟨hs₂, fun n hn => hle₂ n (hle₁ n hn), fun x hx m as ho => ?_⟩
          rcases List.mem_cons.mp hx with rfl | hx
          · exact hle₂ m (ho₁ m as ho)
          · exact ho₂ x hx m as ho
    refine ⟨key.1, key.2.1, fun m as ho => ?_⟩
    cases ho with
    | field hg ho => exact key.2.2 _ hg m as ho

theorem visitAll_spec {f : Visited → ResolvedName → VisitResult} (hf : VisitSpec types f)
    {ts : List Typ} {v v' : Visited} (hv : v.Sound types) (h : visitAll f ts v = some (.ok v')) :
    v'.Sound types ∧ v.Le v' ∧
      ∀ t ∈ ts, ∀ m as, Occurs types false t (.name m as) → v' m = some true := by
  induction ts generalizing v with
  | nil =>
    simp only [visitAll, Option.some.injEq, Except.ok.injEq] at h
    subst h
    exact ⟨hv, fun _ h => h, fun _ ht => nomatch ht⟩
  | cons t ts ih =>
    simp only [visitAll] at h
    rcases ht : visit f t v with _ | _ | v₁
    · simp [ht] at h
    · simp [ht] at h
    · simp only [ht] at h
      obtain ⟨hs₁, hle₁, ho₁⟩ := visit_spec hf t hv ht
      obtain ⟨hs₂, hle₂, ho₂⟩ := ih hs₁ h
      refine ⟨hs₂, fun n hn => hle₂ n (hle₁ n hn), fun x hx m as ho => ?_⟩
      rcases List.mem_cons.mp hx with rfl | hx
      · exact hle₂ m (ho₁ m as ho)
      · exact ho₂ x hx m as ho

theorem visitName_spec (types : TypeMap) (fuel : ℕ) : VisitSpec types (visitName types fuel) := by
  induction fuel with
  | zero => intro v n v' _ h; simp [visitName] at h
  | succ fuel ih =>
    intro v n v' hv h
    simp only [visitName] at h
    cases hn : v n with
    | some mark =>
      cases mark with
      | false => simp [hn] at h
      | true =>
        simp only [hn, Option.some.injEq, Except.ok.injEq] at h
        subst h
        exact ⟨hv, hn, fun _ h => h⟩
    | none =>
      simp only [hn] at h
      cases hd : types.resolveTypeName n with
      | none => simp [hd] at h
      | some d =>
        simp only [hd] at h
        -- the temporary mark adds nothing that has to be sound
        have hv₁ : (v.insert n false).Sound types := by
          intro m hm
          simp only [Visited.insert] at hm
          split at hm
          · simp at hm
          · exact hv m hm
        rcases ha : visitAll (visitName types fuel) d.fieldTypes (v.insert n false) with _ | _ | v₂
        · simp [ha] at h
        · simp [ha] at h
        · simp only [ha, Option.some.injEq, Except.ok.injEq] at h
          subst h
          obtain ⟨hs₂, hle₂, ho₂⟩ := visitAll_spec ih hv₁ ha
          have hacc : Acc (fun m n => Direct types n m) n := by
            refine Acc.intro _ fun m hm => ?_
            obtain ⟨d', t, as, hd', ht, ho⟩ := hm
            rw [hd] at hd'
            obtain rfl := Option.some.inj hd'
            exact hs₂ m (ho₂ t ht m as ho)
          refine ⟨fun m hm => ?_, by simp [Visited.insert], fun m hm => ?_⟩
          · simp only [Visited.insert] at hm
            split at hm
            · rename_i hmn
              rw [hmn]
              exact hacc
            · exact hs₂ m hm
          · have hmn : m ≠ n := by rintro rfl; rw [hn] at hm; cases hm
            simp only [Visited.insert, hmn, if_false]
            exact hle₂ m (by simp only [Visited.insert, hmn, if_false]; exact hm)

theorem visitKeys_spec {fuel : ℕ} {keys : List ResolvedName} {v v' : Visited}
    (hv : v.Sound types) (h : visitKeys types fuel keys v = some (.ok v')) :
    v'.Sound types ∧ v.Le v' ∧ ∀ n ∈ keys, v' n = some true := by
  induction keys generalizing v with
  | nil =>
    simp only [visitKeys, Option.some.injEq, Except.ok.injEq] at h
    subst h
    exact ⟨hv, fun _ h => h, fun _ hn => nomatch hn⟩
  | cons n keys ih =>
    simp only [visitKeys] at h
    rcases hn : visitName types fuel v n with _ | _ | v₁
    · simp [hn] at h
    · simp [hn] at h
    · simp only [hn] at h
      obtain ⟨hs₁, ht₁, hle₁⟩ := visitName_spec types fuel v n v₁ hv hn
      obtain ⟨hs₂, hle₂, ht₂⟩ := ih hs₁ h
      refine ⟨hs₂, fun m hm => hle₂ m (hle₁ m hm), fun m hm => ?_⟩
      rcases List.mem_cons.mp hm with rfl | hm
      · exact hle₂ m ht₁
      · exact ht₂ m hm

/-- Accepted declarations have no cycle of direct mentions. -/
theorem direct_acyclic_of_detectTypeCycles {fuel : ℕ} {keys : List ResolvedName}
    (hkeys : ∀ p ∈ types, p.1 ∈ keys) (h : detectTypeCycles types fuel keys = some (.ok ())) :
    WellFounded fun m n => Direct types n m := by
  simp only [detectTypeCycles, Option.map_eq_some_iff] at h
  obtain ⟨_ | v, hv, hr⟩ := h
  · simp [Except.map] at hr
  · obtain ⟨hs, -, ht⟩ := visitKeys_spec (fun n hn => by cases hn) hv
    refine ⟨fun n => ?_⟩
    by_cases hn : ∃ m, Direct types n m
    · obtain ⟨m, d, t, as, hd, -⟩ := hn
      exact hs n (ht n (hkeys _ (TypeMap.mem_of_resolveTypeName hd)))
    · exact Acc.intro _ fun m hm => absurd ⟨m, hm⟩ hn

/-! ### Enough: no mention through a type argument closes a cycle -/

/-- No cycle of mentions goes through a type argument. -/
def NoArgCycle (types : TypeMap) : Prop :=
  ∀ n m, ArgMention types n m → ¬ ReflTransGen (Mention types) m n

/-- Without cycles of direct mentions and without cycles through type arguments there
are no cycles of mentions. -/
theorem mention_wellFounded (hd : WellFounded fun m n => Direct types n m)
    (ha : NoArgCycle types) : WellFounded fun m n => Mention types n m := by
  have hacyc : Graph.Acyclic (Mention types) := by
    refine Graph.acyclic_of_split (fun n m h => ?_) (Graph.acyclic_of_wellFounded hd) ha
    obtain ⟨_ | _, h⟩ := h
    · exact Or.inl h
    · exact Or.inr h
  refine hacyc.wellFounded (List.finite_toSet (types.map Prod.fst)) ?_
  rintro n m ⟨b, d, t, as, hd, -⟩
  exact List.mem_map.mpr ⟨_, TypeMap.mem_of_resolveTypeName hd, rfl⟩

/-- Every type with this name converts when its used arguments do. -/
def Expandable (types : TypeMap) (uf : UnionFind) (n : ResolvedName) : Prop :=
  ∀ d args k, types.resolveTypeName n = some d → d.arguments.length = args.length →
    (∀ a ∈ args, a.wellFormed types (some k) [] = true) →
    (∀ (i : ℕ) p a, d.params[i]? = some p → args[i]? = some a → Uses types n p →
      Convertible types uf a) →
    Convertible types uf (.name n args)

section
variable {uf : UnionFind}

theorem convertible_of_parts {t : Typ} (hv : t.varIndex = none)
    (h : ∀ c ∈ parts types t, Convertible types uf c) : Convertible types uf t :=
  .mk (Or.inl ⟨hv, rfl⟩) h

/-- A field's type at arguments that convert where they are used. -/
theorem convertible_substituteMany (D : Declarations) {ps : List Identifier} {args : List Typ} {k : ℕ}
    (hlen : ps.length = args.length)
    (hargs : ∀ a ∈ args, a.wellFormed D.types (some k) [] = true)
    {t : Typ} (ht : t.wellFormed D.types none ps = true)
    (hnames : ∀ b m as, Occurs D.types b t (.name m as) → Expandable D.types uf m)
    (hused : ∀ b p, Occurs D.types b t (.explicitVar p) → ∀ (i : ℕ) a, ps[i]? = some p →
      args[i]? = some a → Convertible D.types uf a) :
    Convertible D.types uf (t.substituteMany (paramSubs ps args)) := by
  induction t with
  | var n => simp [Typ.wellFormed] at ht
  | intVar n s => simp [Typ.wellFormed] at ht
  | floatVar n => simp [Typ.wellFormed] at ht
  | recordVar n fs _ => simp [Typ.wellFormed] at ht
  | function qs r _ _ => simp [Typ.wellFormed] at ht
  | unit =>
    rw [substituteMany_unit]
    exact convertible_of_parts rfl fun c hc => by cases hc
  | never =>
    rw [substituteMany_never]
    exact convertible_of_parts rfl fun c hc => by cases hc
  | explicitVar s =>
    simp only [Typ.wellFormed, decide_eq_true_eq] at ht
    obtain ⟨i, a, hi, ha, hsub⟩ := substituteMany_explicitVar ht hlen hargs
    rw [hsub]
    exact hused false s (.here _) i a hi ha
  | record fs ih =>
    rw [Typ.wellFormed_record] at ht
    rw [substituteMany_record]
    refine convertible_of_parts rfl fun c hc => ?_
    simp only [parts, List.map_map] at hc
    obtain ⟨f, hf, rfl⟩ := List.mem_map.mp hc
    exact ih f hf (ht f hf) (fun b m as ho => hnames b m as (.field hf ho))
      fun b p ho => hused b p (.field hf ho)
  | name n as ih =>
    obtain ⟨d, hd, hl, ha⟩ := Typ.wellFormed_name.mp ht
    rw [substituteMany_name]
    refine hnames false n as (.here _) d _ k hd (by simpa using hl) (fun b hb => ?_) ?_
    · obtain ⟨c, hc, rfl⟩ := List.mem_map.mp hb
      exact wellFormed_substituteMany (ha c hc) hlen hargs
    · intro i p b hp hb hu
      rw [List.getElem?_map, Option.map_eq_some_iff] at hb
      obtain ⟨c, hc, rfl⟩ := hb
      have hmem := List.mem_of_getElem? hc
      have hin : ∀ {b s}, Occurs D.types b c s → Occurs D.types true (.name n as) s :=
        fun ho => hu.occurs hd (D.wf hd).nodup hp hc ho
      exact ih c hmem (ha c hmem) (fun b m as ho => hnames true m as (hin ho))
        fun b q ho => hused true q (hin ho)

end

/-- Along an order of mentions every name is finite. -/
theorem expandable_of_wellFounded (D : Declarations) (uf : UnionFind)
    (hM : WellFounded fun m n => Mention D.types n m) (n : ResolvedName) :
    Expandable D.types uf n := by
  induction n using hM.induction with
  | _ n ih =>
    intro d args k hd hlen hargs hused
    have hwf := D.wf hd
    have hps := D.params_length hd hlen
    refine convertible_of_parts rfl fun c hc => ?_
    simp only [parts, hd] at hc
    cases hlist : d.isList with
    | true =>
      obtain ⟨tn, rfl⟩ : ∃ tn, d = .list tn := by
        cases d with
        | list tn => exact ⟨tn, rfl⟩
        | _ => cases hlist
      cases args with
      | nil => simp [TypeDefinition.parts] at hc
      | cons a as =>
        obtain rfl : c = a := by simpa [TypeDefinition.parts] using hc
        obtain ⟨p, hp⟩ : ∃ p, (TypeDefinition.list tn).params[0]? = some p :=
          ⟨_, List.getElem?_eq_getElem (by rw [hps]; simp)⟩
        exact hused 0 p c hp rfl ⟨_, hd, Or.inl ⟨rfl, hp⟩⟩
    | false =>
      rw [D.parts_eq hd hlist] at hc
      obtain ⟨t, ht, rfl⟩ := List.mem_map.mp hc
      refine convertible_substituteMany D hps hargs (hwf.fields t ht) (fun b m as ho => ?_) ?_
      · exact ih m ⟨b, d, t, as, hd, ht, ho⟩
      · intro b p ho i a hp ha
        exact hused i p a hp ha ⟨d, hd, Or.inr ⟨t, ht, b, ho⟩⟩

theorem Convertible.of_varIndex {uf : UnionFind} {t : Typ} {i : ℕ}
    (h : Convertible types uf (.var i)) (hv : t.varIndex = some i) : Convertible types uf t := by
  obtain ⟨hr, h⟩ := h
  refine .mk (Or.inr ⟨i, hv, ?_⟩) h
  rcases hr with ⟨hn, -⟩ | ⟨j, hj, hr⟩
  · cases hn
  · obtain rfl := Option.some.inj hj
    exact hr

/-- Over expandable names, a type converts when its variables do. -/
theorem convertible_of_vars {uf : UnionFind} {k : ℕ} (hfin : ∀ n, Expandable types uf n)
    {t : Typ} (ht : t.wellFormed types (some k) [] = true)
    (hvars : ∀ i ∈ t.vars, Convertible types uf (.var i)) : Convertible types uf t := by
  induction t with
  | var n => exact hvars n (by simp [Typ.vars])
  | intVar n s => exact (hvars n (by simp [Typ.vars])).of_varIndex rfl
  | floatVar n => exact (hvars n (by simp [Typ.vars])).of_varIndex rfl
  | recordVar n fs _ => exact (hvars n (by simp [Typ.vars])).of_varIndex rfl
  | explicitVar s => simp [Typ.wellFormed] at ht
  | unit => exact convertible_of_parts rfl fun c hc => by cases hc
  | never => exact convertible_of_parts rfl fun c hc => by cases hc
  | function qs r _ _ => exact convertible_of_parts rfl fun c hc => by cases hc
  | record fs ih =>
    rw [Typ.wellFormed_record] at ht
    refine convertible_of_parts rfl fun c hc => ?_
    obtain ⟨f, hf, rfl⟩ := List.mem_map.mp hc
    exact ih f hf (ht f hf) fun i hi => hvars i (Typ.mem_varsFields.mpr ⟨f, hf, hi⟩)
  | name n as ih =>
    obtain ⟨d, hd, hl, ha⟩ := Typ.wellFormed_name.mp ht
    refine hfin n d as k hd hl ha fun i p a _ hia _ => ?_
    have hmem := List.mem_of_getElem? hia
    exact ih a hmem (ha a hmem) fun i hi => hvars i (Typ.mem_varsList.mpr ⟨a, hmem, hi⟩)

theorem Typ.vars_of_closed {t : Typ} {ps : List Identifier}
    (h : t.wellFormed types none ps = true) : t.vars = [] := by
  induction t with
  | var _ | intVar _ _ | floatVar _ | recordVar _ _ _ => simp [Typ.wellFormed] at h
  | explicitVar _ | unit | never => rfl
  | function _ _ _ _ => simp [Typ.wellFormed] at h
  | record fs ih =>
    rw [Typ.wellFormed_record] at h
    refine List.eq_nil_iff_forall_not_mem.mpr fun x hx => ?_
    obtain ⟨f, hf, hx⟩ := Typ.mem_varsFields.mp hx
    rw [ih f hf (h f hf)] at hx
    cases hx
  | name n as ih =>
    obtain ⟨d, -, -, ha⟩ := Typ.wellFormed_name.mp h
    refine List.eq_nil_iff_forall_not_mem.mpr fun x hx => ?_
    obtain ⟨a, hm, hx⟩ := Typ.mem_varsList.mp hx
    rw [ih a hm (ha a hm)] at hx
    cases hx

/-! ### Needed: a cycle through an argument is followed for ever -/

section
variable (D : Declarations)

/-- A type and a type that its conversion goes on to. -/
def PartOf (types : TypeMap) (t c : Typ) : Prop := c ∈ parts types t

/-- A subterm that is reached is reached at all arguments. -/
theorem Occurs.partOf {b : Bool} {t s : Typ} (h : Occurs D.types b t s) :
    ∀ {ps : List Identifier} {args : List Typ} {k : Option ℕ},
      t.wellFormed D.types none ps = true → ps.length = args.length →
      (∀ a ∈ args, a.wellFormed D.types k [] = true) →
      s.wellFormed D.types none ps = true ∧
        ReflTransGen (PartOf D.types) (t.substituteMany (paramSubs ps args))
          (s.substituteMany (paramSubs ps args)) := by
  induction h with
  | here t => exact fun ht _ _ => ⟨ht, .refl⟩
  | @field _ fs f _ hf _ ih =>
    intro ps args k ht hlen hargs
    obtain ⟨hs, hw⟩ := ih (Typ.wellFormed_record.mp ht f hf) hlen hargs
    refine ⟨hs, .head ?_ hw⟩
    rw [substituteMany_record]
    exact List.mem_map.mpr ⟨_, List.mem_map.mpr ⟨f, hf, rfl⟩, rfl⟩
  | @listArg _ m d as a _ hd hl ha _ ih =>
    intro ps args k ht hlen hargs
    obtain ⟨-, -, -, has⟩ := Typ.wellFormed_name.mp ht
    obtain ⟨hs, hw⟩ := ih (has a (List.mem_of_getElem? ha)) hlen hargs
    refine ⟨hs, .head ?_ hw⟩
    rw [substituteMany_name]
    cases as with
    | nil => cases ha
    | cons x xs =>
      obtain rfl : x = a := by simpa using ha
      cases d with
      | list tn => simp [PartOf, parts, hd, TypeDefinition.parts]
      | _ => cases hl
  | @arg _ _ m d as i p t a _ hd ht hu hp ha _ ihu ih =>
    intro ps args k hwf hlen hargs
    obtain ⟨d', hd', hl, has⟩ := Typ.wellFormed_name.mp hwf
    rw [hd] at hd'
    obtain rfl := Option.some.inj hd'
    obtain ⟨hs, hw⟩ := ih (has a (List.mem_of_getElem? ha)) hlen hargs
    refine ⟨hs, ReflTransGen.trans ?_ hw⟩
    rw [substituteMany_name]
    -- first to the field that uses the parameter, at the arguments of `m`
    have hps := D.params_length hd hl
    have has' : ∀ c ∈ as.map (fun t => t.substituteMany (paramSubs ps args)),
        c.wellFormed D.types k [] = true := by
      intro c hc
      obtain ⟨x, hx, rfl⟩ := List.mem_map.mp hc
      exact wellFormed_substituteMany (has x hx) hlen hargs
    obtain ⟨hv, hwu⟩ := ihu ((D.wf hd).fields t ht) (by simpa using hps) has'
    simp only [Typ.wellFormed, decide_eq_true_eq] at hv
    obtain ⟨j, x, hj, hx, hsub⟩ := substituteMany_explicitVar hv (by simpa using hps) has'
    -- the parameters are distinct, so that field ends in the argument at `i`
    obtain ⟨hj', hgetj⟩ := List.getElem?_eq_some_iff.mp hj
    obtain ⟨hi, hget⟩ := List.getElem?_eq_some_iff.mp hp
    obtain rfl : i = j := ((D.wf hd).nodup.getElem_inj_iff).mp (hget.trans hgetj.symm)
    rw [List.getElem?_map, ha] at hx
    obtain rfl := Option.some.inj hx
    rw [hsub] at hwu
    refine .head ?_ hwu
    have hlist : d.isList = false := by cases d <;> first | rfl | cases ht
    simp only [PartOf, parts, hd]
    rw [D.parts_eq hd hlist]
    exact List.mem_map.mpr ⟨t, ht, rfl⟩

/-- A mention is followed by the conversion, at some arguments. -/
theorem mention_partOf {n m : ResolvedName} (h : Mention D.types n m) {d : TypeDefinition}
    {args : List Typ} (hd : D.types.resolveTypeName n = some d)
    (hlen : d.arguments.length = args.length)
    (hargs : ∀ a ∈ args, a.wellFormed D.types none [] = true) :
    ∃ d' args', D.types.resolveTypeName m = some d' ∧ d'.arguments.length = args'.length ∧
      (∀ a ∈ args', a.wellFormed D.types none [] = true) ∧
      TransGen (PartOf D.types) (.name n args) (.name m args') := by
  obtain ⟨b, d₁, t, as, hd₁, ht, ho⟩ := h
  rw [hd] at hd₁
  obtain rfl := Option.some.inj hd₁
  have hps := D.params_length hd hlen
  obtain ⟨hwf, hw⟩ := ho.partOf D ((D.wf hd).fields t ht) hps hargs
  obtain ⟨d', hd', hl, has⟩ := Typ.wellFormed_name.mp hwf
  rw [substituteMany_name] at hw
  refine ⟨d', _, hd', by simpa using hl, fun a ha => ?_, .head' ?_ hw⟩
  · obtain ⟨x, hx, rfl⟩ := List.mem_map.mp ha
    exact wellFormed_substituteMany (has x hx) hps hargs
  · have hl : d.isList = false := by cases d <;> first | rfl | cases ht
    simp only [PartOf, parts, hd]
    rw [D.parts_eq hd hl]
    exact List.mem_map.mpr ⟨t, ht, rfl⟩

/-- Below a type with a finite expansion there is no endless path of parts. -/
theorem Convertible.acc {uf : UnionFind} {t : Typ}
    (h : Convertible D.types uf t) (ht : t.wellFormed D.types none [] = true) :
    Acc (fun c t => PartOf D.types t c) t := by
  induction h with
  | @mk t r hr _ ih =>
    have hv : t.varIndex = none := by cases t <;> simp [Typ.wellFormed, Typ.varIndex] at ht ⊢
    obtain rfl : r = t := UnionFind.Resolves.unique hr (Or.inl ⟨hv, rfl⟩)
    exact Acc.intro _ fun c hc => ih c hc (D.wellFormed_parts ht hc)

/-- A name on a cycle of mentions has no finite expansion. -/
theorem not_convertible_of_cycle {uf : UnionFind} {n : ResolvedName} {d : TypeDefinition}
    {args : List Typ} (hn : TransGen (Mention D.types) n n)
    (hd : D.types.resolveTypeName n = some d) (hlen : d.arguments.length = args.length)
    (hargs : ∀ a ∈ args, a.wellFormed D.types none [] = true) :
    ¬ Convertible D.types uf (.name n args) := by
  intro h
  have hacc := (h.acc D (Typ.wellFormed_name.mpr ⟨d, hd, hlen, hargs⟩)).transGen
  clear h
  generalize ht : Typ.name n args = t at hacc
  induction hacc generalizing n d args with
  | intro t _ ih =>
    subst ht
    obtain ⟨m, hnm, hmn⟩ := TransGen.head'_iff.mp hn
    obtain ⟨d', args', hd', hl', ha', hpart⟩ := mention_partOf D hnm hd hlen hargs
    exact ih _ (transGen_swap.mpr hpart) (TransGen.tail' hmn hnm) hd' hl' ha' rfl

end

/-! ### Accepted declarations -/

/-- Over accepted declarations every type expression is converted exactly when no cycle of
mentions goes through a type argument. -/
theorem convert_terminates_iff_noArgCycle (D : Declarations) (fuel : ℕ)
    (keys : List ResolvedName) (hkeys : ∀ p ∈ D.types, p.1 ∈ keys)
    (hok : detectTypeCycles D.types fuel keys = some (.ok ())) :
    (∀ uf t, t.wellFormed D.types none [] = true →
      ∃ n ty uf', convert D.types n uf t = some (some ty, uf')) ↔ NoArgCycle D.types := by
  constructor
  · intro h n m hnm hmn
    have hcycle : TransGen (Mention D.types) n n := TransGen.head' ⟨true, hnm⟩ hmn
    obtain ⟨d, t, as, hd, -⟩ := hnm
    have hargs : ∀ a ∈ List.replicate d.arguments.length Typ.unit,
        a.wellFormed D.types none [] = true := by
      intro a ha
      rw [List.eq_of_mem_replicate ha]
      rfl
    have hlen : d.arguments.length = (List.replicate d.arguments.length Typ.unit).length := by simp
    have hwf := Typ.wellFormed_name.mpr ⟨d, hd, hlen, hargs⟩
    exact not_convertible_of_cycle D hcycle hd hlen hargs
      ((D.convertible_iff hwf).mp (h .empty _ hwf))
  · intro h uf t ht
    rw [D.convertible_iff ht]
    have hM := mention_wellFounded (direct_acyclic_of_detectTypeCycles hkeys hok) h
    have ht₀ : t.wellFormed D.types (some 0) [] = true :=
      Typ.wellFormed_mono (fun _ hk => by cases hk) (fun _ hp => hp) ht
    exact convertible_of_vars (expandable_of_wellFounded D uf hM) ht₀
      (by simp [Typ.vars_of_closed ht])

def optionDef : TypeDefinition :=
  .enum ⟨⟨0, "Option"⟩, [.explicitVar "T"]⟩ [⟨"Some", [.explicitVar "T"]⟩, ⟨"None", []⟩]

/-- `record A { a: Option[A] }` and the builtin `Option`. -/
def recursiveRecord : Declarations where
  types := [(⟨0, "Option"⟩, optionDef),
    (⟨1, "A"⟩, .record ⟨⟨1, "A"⟩, []⟩ [(⟨"a", 0⟩, .name ⟨0, "Option"⟩ [.name ⟨1, "A"⟩ []])])]
  wellFormed := by decide

theorem recursiveRecord_terminates_iff :
    (∀ uf t, t.wellFormed recursiveRecord.types none [] = true →
      ∃ n ty uf', convert recursiveRecord.types n uf t = some (some ty, uf')) ↔
      NoArgCycle recursiveRecord.types :=
  convert_terminates_iff_noArgCycle recursiveRecord 3 [⟨0, "Option"⟩, ⟨1, "A"⟩]
    (by decide) (by decide)

/-- The recursive record is accepted, and its conversion never returns. -/
theorem recursiveRecord_accepted_not_converted :
    detectTypeCycles recursiveRecord.types 3 [⟨0, "Option"⟩, ⟨1, "A"⟩] = some (.ok ()) ∧
      (Typ.name ⟨1, "A"⟩ []).wellFormed recursiveRecord.types none [] = true ∧
      ∀ fuel uf, convert recursiveRecord.types fuel uf (.name ⟨1, "A"⟩ []) = none := by
  refine ⟨by decide, by decide, fun fuel uf => ?_⟩
  have key : ∀ fuel uf, convert recursiveRecord.types fuel uf (.name ⟨1, "A"⟩ []) = none ∧
      convert recursiveRecord.types fuel uf (.name ⟨0, "Option"⟩ [.name ⟨1, "A"⟩ []]) = none := by
    intro fuel
    induction fuel with
    | zero => exact fun uf => ⟨rfl, rfl⟩
    | succ fuel ih =>
      intro uf
      have hA : recursiveRecord.types.resolveTypeName ⟨1, "A"⟩ = some (.record ⟨⟨1, "A"⟩, []⟩
          [(⟨"a", 0⟩, .name ⟨0, "Option"⟩ [.name ⟨1, "A"⟩ []])]) := rfl
      have hO : recursiveRecord.types.resolveTypeName ⟨0, "Option"⟩ = some optionDef := rfl
      constructor
      · simp only [convert, UnionFind.resolve, Typ.varIndex, convertResolved, hA,
          List.zip_nil_left, Typ.substituteMany, List.foldl_nil, List.map_cons, List.map_nil,
          convertAll, convertNamed, (ih uf).2, ConvertResult.map, Option.map_none]
      · simp only [convert, UnionFind.resolve, Typ.varIndex, convertResolved, hO, optionDef,
          List.zip_cons_cons, List.zip_nil_left, EnumVariant.substituteMany, Typ.substituteMany,
          List.foldl_cons, List.foldl_nil, List.map_cons, List.map_nil, Typ.substitute, if_true,
          convertAll, convertNamed, (ih uf).1, ConvertResult.map, Option.map_none]
  exact (key fuel uf).1

end Roto.TypeChecker
