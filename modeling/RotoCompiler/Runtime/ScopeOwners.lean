import RotoCompiler.Runtime.RegisteredTypes

/-!
# Scopes belong to one declaration (runtime/mod.rs, typechecker/scope.rs)

What `Runtime::add` enters keeps scopes apart: the scope of a declaration is newer than the scope
that it stands in, and no other declaration has it. Imports only ever stand in the root.
-/

namespace Roto.Runtime
open TypeChecker

structure Owned (g : ScopeGraph) : Prop where
  root : 0 < g.scopes.length
  newer : ∀ n d s, g.declarations n = some d → d.scope = some s →
    n.scope < s ∧ s < g.scopes.length
  unique : ∀ n n' d d' s, g.declarations n = some d → g.declarations n' = some d' →
    d.scope = some s → d'.scope = some s → n = n'
  imports : ∀ s x id t, g.importsOf s x = some (id, t) → s = ScopeRef.GLOBAL ∧
    (t = ScopeRef.GLOBAL ∨ ∃ m d, g.declarations ⟨ScopeRef.GLOBAL, m⟩ = some d ∧ d.scope = some t)

/-- Nothing is taken away from the graph, and nothing is imported. -/
structure Later (g g' : ScopeGraph) : Prop where
  length : g.scopes.length ≤ g'.scopes.length
  modules : ∀ p, g.isModule p = true → g'.isModule p = true
  declarations : ∀ n d, g.declarations n = some d → g'.declarations n = some d
  imports : ∀ s, g'.importsOf s = g.importsOf s

variable {g g' : ScopeGraph} {ids : RustTypes} {rt rt₀ rt' : Rt}

theorem Later.refl (g : ScopeGraph) : Later g g :=
  ⟨le_rfl, fun _ h => h, fun _ _ h => h, fun _ => rfl⟩

theorem Later.trans {g'' : ScopeGraph} (h : Later g g') (h' : Later g' g'') : Later g g'' :=
  ⟨h.length.trans h'.length, fun p hp => h'.modules p (h.modules p hp),
    fun n d hd => h'.declarations n d (h.declarations n d hd),
    fun s => (h'.imports s).trans (h.imports s)⟩

theorem isModule_lt {p : ScopeRef} (h : g.isModule p = true) : p < g.scopes.length := by
  obtain ⟨s, m, d, hs, -⟩ := ScopeGraph.isModule_spec h
  exact (List.getElem?_eq_some_iff.mp hs).1

/-! ### Single entries -/

theorem importsOf_wrap {parent : ScopeRef} {scopeType : ScopeType}
    (h : g.canWrap parent scopeType = true) (s : ScopeRef) :
    (g.wrap parent scopeType h).importsOf s = g.importsOf s := by
  show ((g.scopes ++ [_])[s]?).elim (fun _ => none) Scope.imports =
    (g.scopes[s]?).elim (fun _ => none) Scope.imports
  rcases Nat.lt_trichotomy s g.scopes.length with hs | hs | hs
  · rw [List.getElem?_append_left hs]
  · rw [hs, List.getElem?_concat_length, List.getElem?_eq_none le_rfl]
    rfl
  · rw [List.getElem?_eq_none (by simp; omega), List.getElem?_eq_none hs.le]

theorem Owned.wrap (hg : Owned g) {parent : ScopeRef} {scopeType : ScopeType}
    (h : g.canWrap parent scopeType = true) : Owned (g.wrap parent scopeType h) where
  root := by
    show 0 < (g.scopes ++ [_]).length
    simp
  newer := by
    intro n d s hd hs
    obtain ⟨hlt, hlt'⟩ := hg.newer n d s hd hs
    refine ⟨hlt, ?_⟩
    show s < (g.scopes ++ [_]).length
    rw [List.length_append]
    exact Nat.lt_add_right _ hlt'
  unique := hg.unique
  imports := by
    intro s x id t hx
    rw [importsOf_wrap] at hx
    exact hg.imports s x id t hx

theorem Later.wrap {parent : ScopeRef} {scopeType : ScopeType}
    (h : g.canWrap parent scopeType = true) : Later g (g.wrap parent scopeType h) where
  length := by
    show g.scopes.length ≤ (g.scopes ++ [_]).length
    simp
  modules := by
    intro p hp
    have hlt := isModule_lt hp
    unfold ScopeGraph.isModule at hp ⊢
    have hget : (g.wrap parent scopeType h).scopes[p]? = g.scopes[p]? :=
      List.getElem?_append_left hlt
    rw [hget]
    exact hp
  declarations := fun _ _ hd => hd
  imports := importsOf_wrap h

theorem Later.enter {d : Declaration} (hnone : g.declarations d.name = none)
    (h : ∀ old, g.declarations d.name = some old → old.scope.isSome → d.scope.isSome) :
    Later g (g.enter d h) := by
  have hkeep : ∀ n e, g.declarations n = some e → (g.enter d h).declarations n = some e := by
    intro n e he
    rw [g.enter_ne h]
    · exact he
    · rintro rfl
      rw [hnone] at he
      cases he
  refine ⟨le_rfl, fun p hp => ?_, hkeep, fun _ => rfl⟩
  obtain ⟨s, m, e, hs, hm, he, hsome⟩ := ScopeGraph.isModule_spec hp
  have hs' : (g.enter d h).scopes[p]? = some s := hs
  unfold ScopeGraph.isModule
  simp only [hs', hm, hkeep _ _ he, Option.any_some, hsome]

theorem Owned.enter (hg : Owned g) {d : Declaration} (hnone : g.declarations d.name = none)
    (h : ∀ old, g.declarations d.name = some old → old.scope.isSome → d.scope.isSome)
    (hnew : ∀ s, d.scope = some s → d.name.scope < s ∧ s < g.scopes.length ∧
      ∀ n e, g.declarations n = some e → e.scope ≠ some s) : Owned (g.enter d h) where
  root := hg.root
  newer := by
    intro n e s he hs
    rcases ScopeGraph.enter_cases he with ⟨rfl, rfl⟩ | ⟨-, he⟩
    · exact ⟨(hnew s hs).1, (hnew s hs).2.1⟩
    · exact hg.newer n e s he hs
  unique := by
    intro n n' e e' s he he' hs hs'
    rcases ScopeGraph.enter_cases he with ⟨rfl, rfl⟩ | ⟨-, he⟩ <;>
      rcases ScopeGraph.enter_cases he' with ⟨rfl, rfl⟩ | ⟨-, he'⟩
    · rfl
    · exact absurd hs' ((hnew s hs).2.2 _ _ he')
    · exact absurd hs ((hnew s hs').2.2 _ _ he)
    · exact hg.unique n n' e e' s he he' hs hs'
  imports := by
    intro s x id t hx
    obtain ⟨hroot, hcases⟩ := hg.imports s x id t hx
    refine ⟨hroot, hcases.imp_right ?_⟩
    rintro ⟨m, e, he, ht⟩
    exact ⟨m, e, (Later.enter hnone h).declarations _ _ he, ht⟩

/-! ### Steps of the registration -/

/-- A later state that keeps scopes apart. -/
structure Kept (rt rt' : Rt) : Prop where
  owned : Owned rt'.graph
  later : Later rt.graph rt'.graph

abbrev KeepsOwned (rt₀ : Rt) {α : Type} (m : Reg α) : Prop := m.Keeps (fun _ => True) (Kept rt₀)

theorem Kept.trans {rt'' : Rt} (h : Kept rt rt') (h' : Kept rt' rt'') : Kept rt rt'' :=
  ⟨h'.owned, h.later.trans h'.later⟩

/-- A step may be looked at from where it starts. -/
theorem keepsOwned_of {α : Type} {m : Reg α}
    (h : ∀ rt r rt' trace, Kept rt₀ rt → m.run rt = some (r, rt', trace) → Kept rt rt') :
    KeepsOwned rt₀ m :=
  fun rt r rt' trace hrt hm _ => hrt.trans (h rt r rt' trace hrt hm)

theorem KeepsOwned.run {α : Type} {m : Reg α} (hm : KeepsOwned rt m) (hrt : Owned rt.graph)
    {r : Except String α} {trace : List Call} (h : m.run rt = some (r, rt', trace)) : Kept rt rt' :=
  hm rt r rt' trace ⟨hrt, .refl _⟩ h fun _ _ => trivial

/-- The scope that `wrap` makes over a scope of the graph belongs to no declaration. -/
theorem wrap_owned (hrt : Owned rt.graph) {parent : ScopeRef} {scopeType : ScopeType}
    (hwrap : rt.graph.canWrap parent scopeType = true) {r : Except String ScopeRef}
    {trace : List Call} (h : (wrap parent scopeType).run rt = some (r, rt', trace)) :
    r = .ok rt.graph.scopes.length ∧ Kept rt rt' ∧ rt.graph.scopes.length < rt'.graph.scopes.length ∧
      rt'.graph.declarations = rt.graph.declarations ∧
      rt'.graph.scopes[rt.graph.scopes.length]? = some ⟨scopeType, some parent, fun _ => none⟩ := by
  change wrap parent scopeType rt = _ at h
  unfold wrap at h
  rw [dif_pos hwrap] at h
  obtain ⟨rfl, hrest⟩ := Prod.mk.inj (Option.some.inj h)
  obtain ⟨rfl, -⟩ := Prod.mk.inj hrest
  have hlength : (rt.graph.wrap parent scopeType hwrap).scopes.length = rt.graph.scopes.length + 1 :=
    List.length_append
  refine ⟨rfl, ⟨hrt.wrap hwrap, .wrap hwrap⟩, ?_, rfl, ?_⟩
  · show _ < (rt.graph.wrap parent scopeType hwrap).scopes.length
    rw [hlength]
    exact Nat.lt_succ_self _
  · exact List.getElem?_concat_length

theorem insertDeclaration_owned (hrt : Owned rt.graph) {name : ResolvedName}
    {kind : DeclarationKind} {scope : Option ScopeRef} {error : String}
    (hnew : ∀ s, scope = some s → name.scope < s ∧ s < rt.graph.scopes.length ∧
      ∀ n e, rt.graph.declarations n = some e → e.scope ≠ some s)
    {r : Except String Unit} {trace : List Call}
    (h : (insertDeclaration name kind scope error).run rt = some (r, rt', trace)) :
    Kept rt rt' ∧ (r = .ok () → rt'.graph.declarations name = some ⟨name, kind, 0, scope⟩ ∧
      rt'.graph.scopes = rt.graph.scopes) := by
  change insertDeclaration name kind scope error rt = _ at h
  unfold insertDeclaration at h
  split_ifs at h with hnone
  · obtain ⟨-, hrest⟩ := Prod.mk.inj (Option.some.inj h)
    obtain ⟨rfl, -⟩ := Prod.mk.inj hrest
    have hold : ∀ old, rt.graph.declarations name = some old → old.scope.isSome → scope.isSome := by
      intro old hold
      rw [hnone] at hold
      cases hold
    refine ⟨⟨@Owned.enter rt.graph hrt ⟨name, kind, 0, scope⟩ hnone hold hnew,
      @Later.enter rt.graph ⟨name, kind, 0, scope⟩ hnone hold⟩, fun _ => ⟨?_, rfl⟩⟩
    exact rt.graph.enter_self ⟨name, kind, 0, scope⟩ hold
  · obtain ⟨rfl, hrest⟩ := Prod.mk.inj (Option.some.inj h)
    obtain ⟨rfl, -⟩ := Prod.mk.inj hrest
    exact ⟨⟨hrt, .refl _⟩, fun hok => by cases hok⟩

/-- A declaration without a scope can be entered anywhere. -/
theorem keepsOwned_insertDeclaration (name : ResolvedName) (kind : DeclarationKind)
    (error : String) : KeepsOwned rt₀ (insertDeclaration name kind none error) := by
  refine keepsOwned_of fun rt r rt' trace hrt h => ?_
  exact (insertDeclaration_owned hrt.owned (fun s hs => by cases hs) h).1

/-- The scope that has just been wrapped can be given to a declaration outside of it. -/
theorem fresh_scope (hrt : Owned rt.graph) {name : ResolvedName}
    (hname : name.scope < rt.graph.scopes.length)
    (hlength : rt.graph.scopes.length < rt'.graph.scopes.length)
    (hdeclarations : rt'.graph.declarations = rt.graph.declarations) (s : ScopeRef)
    (hs : some rt.graph.scopes.length = some s) : name.scope < s ∧ s < rt'.graph.scopes.length ∧
      ∀ n e, rt'.graph.declarations n = some e → e.scope ≠ some s := by
  obtain rfl := Option.some.inj hs
  refine ⟨hname, hlength, fun n e he hes => ?_⟩
  rw [hdeclarations] at he
  exact absurd (hrt.newer n e _ he hes).2 (lt_irrefl _)

theorem keepsOwned_insertType {name : ResolvedName} (definition : TypeDefinition) (error : String)
    (hname : name.scope < rt₀.graph.scopes.length) :
    KeepsOwned rt₀ (insertType name definition error) := by
  refine keepsOwned_of fun rt r rt' trace hrt h => ?_
  have hname' : name.scope < rt.graph.scopes.length := lt_of_lt_of_le hname hrt.later.length
  have hcan : rt.graph.canWrap name.scope .other = true := by
    simp only [ScopeGraph.canWrap, Bool.and_true, decide_eq_true_eq]
    exact hname'
  unfold insertType at h
  rcases Traced.bind_cases h with ⟨e, hwrap, -⟩ | ⟨newScope, rt₁, t₁, t₂, hwrap, hafter, -⟩
  · cases (wrap_owned hrt.owned hcan hwrap).1
  obtain ⟨hscope, hkept, hlength, hdeclarations, -⟩ := wrap_owned hrt.owned hcan hwrap
  obtain rfl := Except.ok.inj hscope
  have hnew := fresh_scope hrt.owned hname' hlength hdeclarations
  rcases Traced.bind_cases hafter with ⟨e, hinsert, -⟩ | ⟨_, rt₂, t₃, t₄, hinsert, hmodify, -⟩
  · exact hkept.trans (insertDeclaration_owned hkept.owned hnew hinsert).1
  · obtain ⟨-, rfl, -⟩ := Traced.modify_run hmodify
    have hkept₂ := hkept.trans (insertDeclaration_owned hkept.owned hnew hinsert).1
    exact ⟨hkept₂.owned, hkept₂.later⟩

theorem declareRuntimeModule_owned (hrt : Owned rt.graph) {parent : Option ScopeRef}
    {ident : Identifier} (hparent : ∀ p, parent = some p → rt.graph.isModule p = true)
    {r : Except String ScopeRef} {trace : List Call}
    (h : (declareRuntimeModule parent ident).run rt = some (r, rt', trace)) :
    Kept rt rt' ∧ ∀ s, r = .ok s → rt'.graph.isModule s = true := by
  have hname : parent.getD ScopeRef.GLOBAL < rt.graph.scopes.length := by
    cases parent with
    | none => exact hrt.root
    | some p => exact isModule_lt (hparent p rfl)
  have hcan : rt.graph.canWrap ScopeRef.GLOBAL
      (.module ⟨⟨parent.getD ScopeRef.GLOBAL, ident⟩, parent⟩) = true := by
    unfold ScopeGraph.canWrap
    refine Bool.and_eq_true_iff.mpr ⟨decide_eq_true hrt.root, ?_⟩
    cases parent with
    | none => rfl
    | some p => exact hparent p rfl
  unfold declareRuntimeModule at h
  rcases Traced.bind_cases h with ⟨e, hwrap, -⟩ | ⟨modScope, rt₁, t₁, t₂, hwrap, hafter, -⟩
  · cases (wrap_owned hrt hcan hwrap).1
  obtain ⟨hscope, hkept, hlength, hdeclarations, hget⟩ := wrap_owned hrt hcan hwrap
  obtain rfl := Except.ok.inj hscope
  have hnew := @fresh_scope rt rt₁ hrt ⟨parent.getD ScopeRef.GLOBAL, ident⟩ hname hlength
    hdeclarations
  rcases Traced.bind_cases hafter with ⟨e, hinsert, rfl⟩ | ⟨u, rt₂, t₃, t₄, hinsert, hpure, -⟩
  · refine ⟨hkept.trans (insertDeclaration_owned hkept.owned hnew hinsert).1, fun s hs => ?_⟩
    cases hs
  · obtain ⟨rfl, rfl, -⟩ := Traced.ofPure_run hpure
    obtain ⟨hkept₂, hdec⟩ := insertDeclaration_owned hkept.owned hnew hinsert
    obtain ⟨hdec, hscopes⟩ := hdec rfl
    refine ⟨hkept.trans hkept₂, fun s hs => ?_⟩
    obtain rfl := Except.ok.inj hs
    unfold ScopeGraph.isModule
    rw [hscopes, hget]
    simp only [hdec, Option.any_some, Option.isSome_some]

/-! ### Libraries -/

/-- Without enclosing scopes, a name is looked up among the declarations of its scope. -/
theorem resolveName_here (g : ScopeGraph) (scope : ScopeRef) (ident : Identifier) :
    g.resolveName scope ident false = g.declarations ⟨scope, ident⟩ := by
  unfold ScopeGraph.resolveName ScopeGraph.resolveNameFrom
  cases g.declarations ⟨scope, ident⟩ <;> rfl

theorem scopeOf_some {scope inner : ScopeRef} {ident : Identifier} :
    rt.scopeOf scope ident = some inner ↔
      ∃ d, rt.graph.declarations ⟨scope, ident⟩ = some d ∧ d.scope = some inner := by
  rw [Rt.scopeOf, resolveName_here]
  exact Option.bind_eq_some_iff

theorem Owned.scopeOf (h : Owned rt.graph) {scope inner : ScopeRef} {ident : Identifier}
    (hs : rt.scopeOf scope ident = some inner) : scope < inner ∧ inner < rt.graph.scopes.length := by
  obtain ⟨d, hd, hinner⟩ := scopeOf_some.mp hs
  exact h.newer _ d inner hd hinner

theorem keepsOwned_pure {α : Type} (a : α) : KeepsOwned rt₀ (pure a : Reg α) := Traced.keeps_ofPure a

/-- The items of a module, in its scope. -/
theorem keepsOwned_inScopeOf {scope : ScopeRef} {ident : Identifier} {k : ScopeRef → Reg Unit}
    (hk : ∀ rt inner, Later rt₀.graph rt.graph → inner < rt.graph.scopes.length →
      KeepsOwned rt (k inner)) :
    KeepsOwned rt₀ (do
      let rt ← Traced.get
      let inner ← Traced.unwrap (rt.scopeOf scope ident)
      k inner) := by
  refine keepsOwned_of fun rt r rt' trace hrt h => ?_
  rw [Traced.get_bind_run] at h
  cases hscope : rt.scopeOf scope ident with
  | none =>
    rw [hscope] at h
    rcases Traced.bind_cases h with ⟨e, hrun, -⟩ | ⟨inner, rt₁, t₁, t₂, hrun, -, -⟩
    · cases hrun
    · cases hrun
  | some inner =>
    have hlt := (hrt.owned.scopeOf hscope).2
    rw [hscope] at h
    rcases Traced.bind_cases h with ⟨e, hrun, -⟩ | ⟨i, rt₁, t₁, t₂, hrun, hafter, -⟩
    · cases (Traced.ofPure_run hrun).1
    · obtain ⟨hi, rfl, -⟩ := Traced.ofPure_run hrun
      obtain rfl := Except.ok.inj hi
      exact (hk rt₁ i hrt.later hlt).run hrt.owned hafter

mutual

theorem keepsOwned_declareModulesOf (rt₀ : Rt) {scope : Option ScopeRef}
    (hscope : ∀ p, scope = some p → rt₀.graph.isModule p = true) (item : Item ids) :
    KeepsOwned rt₀ (declareModulesOf ids scope item) := by
  cases item with
  | module ident children =>
    refine keepsOwned_of fun rt r rt' trace hrt h => ?_
    rw [declareModulesOf] at h
    have hscope' : ∀ p, scope = some p → rt.graph.isModule p = true :=
      fun p hp => hrt.later.modules p (hscope p hp)
    rcases Traced.bind_cases h with ⟨e, hmodule, -⟩ | ⟨s, rt₁, t₁, t₂, hmodule, hafter, -⟩
    · exact (declareRuntimeModule_owned hrt.owned hscope' hmodule).1
    · obtain ⟨hkept, hs⟩ := declareRuntimeModule_owned hrt.owned hscope' hmodule
      have hinner : ∀ p, some s = some p → rt₁.graph.isModule p = true := by
        intro p hp
        obtain rfl := Option.some.inj hp
        exact hs s rfl
      exact hkept.trans ((keepsOwned_declareModules _ hinner children).run hkept.owned hafter)
  | _ => exact keepsOwned_pure _

theorem keepsOwned_declareModules (rt₀ : Rt) {scope : Option ScopeRef}
    (hscope : ∀ p, scope = some p → rt₀.graph.isModule p = true) (items : List (Item ids)) :
    KeepsOwned rt₀ (declareModules ids scope items) := by
  cases items with
  | nil => exact keepsOwned_pure _
  | cons item items =>
    rw [declareModules]
    exact Traced.keeps_bind (keepsOwned_declareModulesOf _ hscope item) fun _ =>
      keepsOwned_declareModules _ hscope items

end

theorem keepsOwned_declareRuntimeType {scope : ScopeRef} (ident : Identifier) (typeId : ℕ)
    (hscope : scope < rt₀.graph.scopes.length) :
    KeepsOwned rt₀ (declareRuntimeType scope ident typeId) := by
  refine Traced.keeps_get_bind fun rt => Traced.keeps_bind ?_ fun _ => ?_
  · intro rt₁ r rt' trace hrt h _
    obtain ⟨-, hrest⟩ := Prod.mk.inj (Option.some.inj h)
    obtain ⟨rfl, -⟩ := Prod.mk.inj hrest
    exact hrt
  · cases rt.builtin scope ident with
    | some nd => exact keepsOwned_pure ()
    | none =>
      refine Traced.keeps_bind (keepsOwned_insertType _ _ hscope) fun _ => ?_
      intro rt₁ r rt' trace hrt h _
      obtain ⟨-, rfl, -⟩ := Traced.modify_run h
      exact ⟨hrt.owned, hrt.later⟩

theorem keepsOwned_declareType {scope : ScopeRef} (ty : TypeItem ids)
    (hscope : scope < rt₀.graph.scopes.length) : KeepsOwned rt₀ (declareType ids scope ty) := by
  refine Traced.keeps_get_bind fun rt => ?_
  cases rt.types.find? fun oldTy => oldTy.typeId = ty.typeId with
  | some oldTy => exact Traced.keeps_fail _
  | none =>
    refine Traced.keeps_bind (keepsOwned_declareRuntimeType _ _ hscope) fun _ => ?_
    intro rt₁ r rt' trace hrt h _
    obtain ⟨-, rfl, -⟩ := Traced.modify_run h
    exact ⟨hrt.owned, hrt.later⟩

mutual

theorem keepsOwned_declareTypesOf (rt₀ : Rt) {scope : ScopeRef}
    (hscope : scope < rt₀.graph.scopes.length) (item : Item ids) : KeepsOwned rt₀ (declareTypesOf ids scope item) := by
  cases item with
  | module ident children =>
    rw [declareTypesOf]
    exact keepsOwned_inScopeOf fun rt inner _ hinner => keepsOwned_declareTypes _ hinner children
  | type ty => exact keepsOwned_declareType ty hscope
  | _ => exact keepsOwned_pure _

theorem keepsOwned_declareTypes (rt₀ : Rt) {scope : ScopeRef}
    (hscope : scope < rt₀.graph.scopes.length)
    (items : List (Item ids)) : KeepsOwned rt₀ (declareTypes ids scope items) := by
  cases items with
  | nil => exact keepsOwned_pure _
  | cons item items =>
    rw [declareTypes]
    exact Traced.keeps_bind (keepsOwned_declareTypesOf _ hscope item) fun _ =>
      keepsOwned_declareTypes _ hscope items

end

theorem keepsOwned_declareTypeParams (scope : ScopeRef) (idents : List Identifier) :
    KeepsOwned rt₀ (declareTypeParams scope idents) := by
  induction idents with
  | nil => exact keepsOwned_pure _
  | cons ident idents ih =>
    intro rt r rt' trace hrt h hok
    change declareTypeParams scope (ident :: idents) rt = _ at h
    unfold declareTypeParams at h
    split at h
    next rt₁ t₁ hinsert =>
      have hrt₁ := keepsOwned_insertDeclaration _ _ _ rt _ rt₁ t₁ hrt hinsert fun _ _ => trivial
      exact ih rt₁ r rt' trace hrt₁ h hok
    next => cases h

theorem keepsOwned_convertTypes (tys : List Value.RustTy) :
    KeepsOwned rt₀ (convertTypes ids tys) := by
  induction tys with
  | nil => exact keepsOwned_pure _
  | cons ty tys ih =>
    refine Traced.keeps_get_bind fun rt => ?_
    exact Traced.keeps_bind (Traced.keeps_ofExcept _) fun _ => ih

theorem keepsOwned_declareFunction {scope : ScopeRef} (f : FunctionItem) (method : Bool)
    (hscope : scope < rt₀.graph.scopes.length) :
    KeepsOwned rt₀ (declareFunction ids scope f method) := by
  refine Traced.keeps_bind ?_ fun _ => keepsOwned_insertDeclaration _ _ _
  unfold declareSignature
  cases f.sig with
  | some typeParams =>
    refine Traced.keeps_bind ?_ fun paramScope => keepsOwned_declareTypeParams _ _
    refine keepsOwned_of fun rt r rt' trace hrt h => ?_
    have hlt : scope < rt.graph.scopes.length := lt_of_lt_of_le hscope hrt.later.length
    have hcan : rt.graph.canWrap scope .other = true := by
      simp only [ScopeGraph.canWrap, Bool.and_true, decide_eq_true_eq]
      exact hlt
    exact (wrap_owned hrt.owned hcan h).2.1
  | none => exact keepsOwned_convertTypes _

theorem keepsOwned_declareConstant (scope : ScopeRef) (c : ConstantItem) :
    KeepsOwned rt₀ (declareConstant ids scope c) := by
  refine Traced.keeps_get_bind fun rt => ?_
  exact Traced.keeps_bind (Traced.keeps_ofExcept _) fun _ => keepsOwned_insertDeclaration _ _ _

theorem keepsOwned_declareMethods {scope : ScopeRef} (items : List (Item ids))
    (hscope : scope < rt₀.graph.scopes.length) :
    KeepsOwned rt₀ (declareMethods ids scope items) := by
  induction items with
  | nil => exact keepsOwned_pure _
  | cons item items ih =>
    refine Traced.keeps_bind ?_ fun _ => ih
    cases item with
    | function f => exact keepsOwned_declareFunction f true hscope
    | use _ => exact keepsOwned_pure _
    | constant _ => exact keepsOwned_pure _
    | impl _ _ => exact Traced.keeps_fail _
    | type _ => exact Traced.keeps_fail _
    | module _ _ => exact Traced.keeps_fail _

/-- The items of an `impl`, in the scope of its type. -/
theorem keepsOwned_inImplScope {ty : ℕ} {k : ScopeRef → Reg Unit}
    (hk : ∀ rt inner, Later rt₀.graph rt.graph → inner < rt.graph.scopes.length →
      KeepsOwned rt (k inner)) :
    KeepsOwned rt₀ (implScope ty >>= k) := by
  refine keepsOwned_of fun rt r rt' trace hrt h => ?_
  have hrun : ∀ r s t, (implScope ty).run rt = some (r, s, t) →
      s = rt ∧ ∀ inner, r = .ok inner → inner < rt.graph.scopes.length := by
    intro r s t himpl
    unfold implScope at himpl
    rw [Traced.get_bind_run] at himpl
    cases hget : rt.getRuntimeType ty with
    | none =>
      simp only [hget] at himpl
      obtain ⟨rfl, rfl, -⟩ := Traced.fail_run himpl
      exact ⟨rfl, fun inner h => by cases h⟩
    | some rtTy =>
      simp only [hget] at himpl
      cases hscope : rt.scopeOf rtTy.name.scope rtTy.name.ident with
      | none =>
        rw [hscope] at himpl
        cases himpl
      | some inner =>
        rw [hscope] at himpl
        obtain ⟨rfl, rfl, -⟩ := Traced.ofPure_run himpl
        refine ⟨rfl, fun i hi => ?_⟩
        obtain rfl := Except.ok.inj hi
        exact (hrt.owned.scopeOf hscope).2
  rcases Traced.bind_cases h with ⟨e, himpl, -⟩ | ⟨inner, rt₁, t₁, t₂, himpl, hafter, -⟩
  · obtain ⟨rfl, -⟩ := hrun _ _ _ himpl
    exact ⟨hrt.owned, .refl _⟩
  · obtain ⟨rfl, hlt⟩ := hrun _ _ _ himpl
    exact (hk rt₁ inner hrt.later (hlt inner rfl)).run hrt.owned hafter

mutual

theorem keepsOwned_declareFunctionsOf (rt₀ : Rt) {scope : ScopeRef}
    (hscope : scope < rt₀.graph.scopes.length) (item : Item ids) :
    KeepsOwned rt₀ (declareFunctionsOf ids scope item) := by
  cases item with
  | module ident children =>
    rw [declareFunctionsOf]
    exact keepsOwned_inScopeOf fun rt inner _ hinner => keepsOwned_declareFunctions _ hinner children
  | function f => exact keepsOwned_declareFunction f false hscope
  | impl ty children =>
    rw [declareFunctionsOf]
    exact keepsOwned_inImplScope fun rt inner _ hinner => keepsOwned_declareMethods children hinner
  | _ => exact keepsOwned_pure _

theorem keepsOwned_declareFunctions (rt₀ : Rt) {scope : ScopeRef}
    (hscope : scope < rt₀.graph.scopes.length) (items : List (Item ids)) :
    KeepsOwned rt₀ (declareFunctions ids scope items) := by
  cases items with
  | nil => exact keepsOwned_pure _
  | cons item items =>
    rw [declareFunctions]
    exact Traced.keeps_bind (keepsOwned_declareFunctionsOf _ hscope item) fun _ =>
      keepsOwned_declareFunctions _ hscope items

end

mutual

theorem keepsOwned_declareConstantsOf (rt₀ : Rt) (scope : ScopeRef) (item : Item ids) :
    KeepsOwned rt₀ (declareConstantsOf ids scope item) := by
  cases item with
  | module ident children =>
    rw [declareConstantsOf]
    exact keepsOwned_inScopeOf fun rt inner _ _ => keepsOwned_declareConstants _ inner children
  | impl ty children =>
    rw [declareConstantsOf]
    exact keepsOwned_inImplScope fun rt inner _ _ => keepsOwned_declareConstants _ inner children
  | constant c => exact keepsOwned_declareConstant _ _
  | _ => exact keepsOwned_pure _

theorem keepsOwned_declareConstants (rt₀ : Rt) (scope : ScopeRef) (items : List (Item ids)) :
    KeepsOwned rt₀ (declareConstants ids scope items) := by
  cases items with
  | nil => exact keepsOwned_pure _
  | cons item items =>
    rw [declareConstants]
    exact Traced.keeps_bind (keepsOwned_declareConstantsOf _ scope item) fun _ =>
      keepsOwned_declareConstants _ scope items

end

/-- `add` up to the imports. -/
def declareItems (ids : RustTypes) (items : List (Item ids)) : Reg Unit := do
  declareModules ids none items
  declareTypes ids ScopeRef.GLOBAL items
  declareFunctions ids ScopeRef.GLOBAL items
  declareConstants ids ScopeRef.GLOBAL items

theorem declareItems_kept (hrt : Owned rt.graph) {items : List (Item ids)} {r : Except String Unit}
    {trace : List Call} (h : (declareItems ids items).run rt = some (r, rt', trace)) :
    Kept rt rt' := by
  have hmodules : KeepsOwned rt (declareModules ids none items) :=
    keepsOwned_declareModules rt (fun p hp => by cases hp) items
  have htypes := keepsOwned_declareTypes rt hrt.root items
  have hfunctions := keepsOwned_declareFunctions rt hrt.root items
  have hconstants := keepsOwned_declareConstants rt ScopeRef.GLOBAL items
  have hall : KeepsOwned rt (declareItems ids items) :=
    Traced.keeps_bind hmodules fun _ => Traced.keeps_bind htypes fun _ =>
      Traced.keeps_bind hfunctions fun _ => hconstants
  exact hall.run hrt h

/-! ### The built-in types -/

theorem empty_owned : Owned Rt.empty.graph where
  root := Nat.zero_lt_one
  newer := by
    intro n d s hd
    cases hd
  unique := by
    intro n n' d d' s hd
    cases hd
  imports := by
    intro s x id t hx
    cases s <;> cases hx

theorem keepsOwned_declareVariants (scope : ScopeRef) (variants : List EnumVariant) :
    KeepsOwned rt₀ (declareVariants scope variants) := by
  induction variants with
  | nil => exact keepsOwned_pure _
  | cons variant variants ih =>
    exact Traced.keeps_bind (keepsOwned_insertDeclaration _ _ _) fun _ => ih

theorem keepsOwned_declareBuiltinType (hrt₀ : Owned rt₀.graph) (ident : Identifier)
    (definition : TypeDefinition) : KeepsOwned rt₀ (declareBuiltinType ident definition) := by
  refine Traced.keeps_bind (keepsOwned_insertType _ _ hrt₀.root) fun _ => ?_
  refine Traced.keeps_bind ?_ fun _ => ?_
  · cases definition with
    | enum tn variants =>
      refine Traced.keeps_get_bind fun rt => ?_
      exact Traced.keeps_bind (Traced.keeps_unwrap _) fun scope => keepsOwned_declareVariants _ _
    | _ => exact keepsOwned_pure _
  · intro rt₁ r rt' trace hrt h _
    obtain ⟨-, rfl, -⟩ := Traced.modify_run h
    exact ⟨hrt.owned, hrt.later⟩

theorem keepsOwned_declareBuiltinTypes (hrt₀ : Owned rt₀.graph)
    (types : List (Identifier × TypeDefinition)) : KeepsOwned rt₀ (declareBuiltinTypes types) := by
  induction types with
  | nil => exact keepsOwned_pure _
  | cons e types ih =>
    exact Traced.keeps_bind (keepsOwned_declareBuiltinType hrt₀ _ _) fun _ => ih

theorem new_kept : Kept Rt.empty Rt.new := by
  have hkeeps := keepsOwned_declareBuiltinTypes empty_owned defaultTypes
  unfold Rt.new
  split
  · next r rt trace h => exact hkeeps.run empty_owned h
  · exact ⟨empty_owned, .refl _⟩

/-- Nothing is imported before a library is added. -/
theorem new_imports (s : ScopeRef) (x : Identifier) : Rt.new.graph.importsOf s x = none := by
  rw [new_kept.later.imports s]
  cases s <;> rfl

end Roto.Runtime
