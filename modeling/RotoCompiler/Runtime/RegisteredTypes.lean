import Mathlib.Data.List.Pairwise
import RotoCompiler.Runtime.Registration

/-!
# What registration leaves behind

Every registered type is declared under its name, as itself or as the built-in type of the same
Rust type, as long as no type is registered under the name of a built-in type that is another
one.
-/

namespace Roto.Runtime
open TypeChecker
open Value (RustTy)

variable {ids : RustTypes}

/-! ### The invariant -/

/-- The Rust type of a built-in type. -/
def rustTypeOf (ids : RustTypes) : TypeDefinition → Option ℕ
  | .primitive p => some (ids.primitive p)
  | .list _ => some ids.erasedList
  | _ => none

/-- The name of a registered type is declared, as a type of the runtime with the same id or as
the built-in type of the same Rust type. -/
def Declared (ids : RustTypes) (rt : Rt) (r : RuntimeType) : Prop :=
  (∃ dec, rt.graph.declarations r.name = some dec ∧ dec.kind = .type) ∧
    ∃ d, rt.definitions.resolveTypeName r.name = some d ∧
      (d = .runtime r.name r.typeId ∨ rustTypeOf ids d = some r.typeId)

/-- The layout and the functions of a registered type are those of its Rust type. -/
def OneType (ids : RustTypes) (r : RuntimeType) : Prop :=
  r.layout = ids.layout r.typeId ∧ r.eqFn = r.typeId ∧
    ∀ clone drop, r.movability = .cloneDrop clone drop → clone = r.typeId ∧ drop = r.typeId

/-- The list of types, the scope graph and the type map agree. -/
structure Faithful (ids : RustTypes) (rt : Rt) : Prop where
  declared : ∀ r ∈ rt.types, Declared ids rt r
  oneType : ∀ r ∈ rt.types, OneType ids r
  distinct : rt.types.Pairwise fun r s => r.typeId ≠ s.typeId ∧ r.name ≠ s.name
  defined : ∀ n d, rt.definitions.resolveTypeName n = some d →
    ∃ dec, rt.graph.declarations n = some dec ∧ dec.kind = .type
  builtins : ∀ e ∈ defaultTypes,
    rt.definitions.resolveTypeName ⟨ScopeRef.GLOBAL, e.1⟩ = some e.2
  maps : rt.typeMap = rt.definitions

/-- A type has the name of no built-in type, or it is that type. -/
def Call.Meets (ids : RustTypes) (c : Call) : Prop :=
  ∀ b ∈ c.rt.builtin c.scope c.ident,
    b.1 = ⟨c.scope, c.ident⟩ ∧ rustTypeOf ids b.2 = some c.typeId

instance (ids : RustTypes) (c : Call) : Decidable (c.Meets ids) :=
  inferInstanceAs (Decidable (∀ b ∈ c.rt.builtin c.scope c.ident,
    b.1 = ⟨c.scope, c.ident⟩ ∧ rustTypeOf ids b.2 = some c.typeId))

/-! ### Steps that declare no type -/

/-- Nothing is taken away, and no type is added. -/
structure Grows (rt rt' : Rt) : Prop where
  declarations : ∀ n dec, rt.graph.declarations n = some dec →
    rt'.graph.declarations n = some dec
  definitions : rt'.definitions = rt.definitions
  typeMap : rt'.typeMap = rt.typeMap
  types : rt'.types = rt.types

theorem Grows.refl (rt : Rt) : Grows rt rt := ⟨fun _ _ h => h, rfl, rfl, rfl⟩

theorem Grows.trans {rt rt' rt'' : Rt} (h : Grows rt rt') (h' : Grows rt' rt'') :
    Grows rt rt'' where
  declarations := fun n dec hd => h'.declarations n dec (h.declarations n dec hd)
  definitions := h'.definitions.trans h.definitions
  typeMap := h'.typeMap.trans h.typeMap
  types := h'.types.trans h.types

theorem Faithful.grows {rt rt' : Rt} (h : Faithful ids rt) (hgrows : Grows rt rt') :
    Faithful ids rt' where
  declared := by
    intro r hr
    rw [hgrows.types] at hr
    obtain ⟨⟨dec, hdec, hkind⟩, hd⟩ := h.declared r hr
    refine ⟨⟨dec, hgrows.declarations _ _ hdec, hkind⟩, ?_⟩
    rw [hgrows.definitions]
    exact hd
  oneType := by
    intro r hr
    rw [hgrows.types] at hr
    exact h.oneType r hr
  distinct := by
    rw [hgrows.types]
    exact h.distinct
  defined := by
    intro n d hd
    rw [hgrows.definitions] at hd
    obtain ⟨dec, hdec, hkind⟩ := h.defined n d hd
    exact ⟨dec, hgrows.declarations _ _ hdec, hkind⟩
  builtins := by
    rw [hgrows.definitions]
    exact h.builtins
  maps := by
    rw [hgrows.typeMap, hgrows.definitions]
    exact h.maps

abbrev KeepsFaithful (ids : RustTypes) {α : Type} (m : Reg α) : Prop :=
  m.Keeps (Call.Meets ids) (Faithful ids)

theorem keeps_of_grows {α : Type} {m : Reg α}
    (h : ∀ rt r rt' trace, m.run rt = some (r, rt', trace) → Grows rt rt') :
    KeepsFaithful ids m :=
  fun rt r rt' trace hrt hm _ => hrt.grows (h rt r rt' trace hm)

theorem wrap_run {parent : ScopeRef} {scopeType : ScopeType} {rt rt' : Rt}
    {r : Except String ScopeRef} {trace : List Call}
    (h : (wrap parent scopeType).run rt = some (r, rt', trace)) :
    trace = [] ∧ Grows rt rt' ∧ Grows rt' rt := by
  change wrap parent scopeType rt = _ at h
  unfold wrap at h
  split_ifs at h with hwrap
  · obtain ⟨-, hrest⟩ := Prod.mk.inj (Option.some.inj h)
    obtain ⟨rfl, rfl⟩ := Prod.mk.inj hrest
    exact ⟨rfl, ⟨fun _ _ h => h, rfl, rfl, rfl⟩, ⟨fun _ _ h => h, rfl, rfl, rfl⟩⟩
  · obtain ⟨-, hrest⟩ := Prod.mk.inj (Option.some.inj h)
    obtain ⟨rfl, rfl⟩ := Prod.mk.inj hrest
    exact ⟨rfl, .refl _, .refl _⟩

/-- The declaration is new, or there is one and nothing happens. -/
theorem insertDeclaration_run {name : ResolvedName} {kind : DeclarationKind}
    {scope : Option ScopeRef} {error : String} {rt rt' : Rt} {r : Except String Unit}
    {trace : List Call}
    (h : (insertDeclaration name kind scope error).run rt = some (r, rt', trace)) :
    trace = [] ∧ Grows rt rt' ∧
      (r = .ok () ∧ rt.graph.declarations name = none ∧
          rt'.graph.declarations name = some ⟨name, kind, 0, scope⟩ ∨
        r = .error error) := by
  change insertDeclaration name kind scope error rt = _ at h
  unfold insertDeclaration at h
  split_ifs at h with hnone
  · obtain ⟨rfl, hrest⟩ := Prod.mk.inj (Option.some.inj h)
    obtain ⟨rfl, rfl⟩ := Prod.mk.inj hrest
    refine ⟨rfl, ⟨?_, rfl, rfl, rfl⟩, .inl ⟨rfl, hnone, ?_⟩⟩
    swap
    · exact Function.update_self ..
    intro n dec hdec
    have hn : n ≠ name := by
      rintro rfl
      rw [hnone] at hdec
      cases hdec
    rw [ScopeGraph.enter_ne _ _ hn]
    exact hdec
  · obtain ⟨rfl, hrest⟩ := Prod.mk.inj (Option.some.inj h)
    obtain ⟨rfl, rfl⟩ := Prod.mk.inj hrest
    exact ⟨rfl, .refl _, .inr rfl⟩

theorem keeps_wrap (parent : ScopeRef) (scopeType : ScopeType) :
    KeepsFaithful ids (wrap parent scopeType) :=
  keeps_of_grows fun _ _ _ _ h => (wrap_run h).2.1

theorem keeps_insertDeclaration (name : ResolvedName) (kind : DeclarationKind)
    (scope : Option ScopeRef) (error : String) :
    KeepsFaithful ids (insertDeclaration name kind scope error) :=
  keeps_of_grows fun _ _ _ _ h => (insertDeclaration_run h).2.1

theorem keeps_insertImport (scope : ScopeRef) (name : ResolvedName) :
    KeepsFaithful ids (insertImport scope name) := by
  refine keeps_of_grows fun rt r rt' trace h => ?_
  change insertImport scope name rt = _ at h
  unfold insertImport ScopeGraph.insertImport at h
  split at h
  next graph hgraph =>
    obtain ⟨-, hrest⟩ := Prod.mk.inj (Option.some.inj h)
    obtain ⟨rfl, -⟩ := Prod.mk.inj hrest
    split at hgraph
    · cases hgraph
    · obtain rfl := Except.ok.inj hgraph
      exact ⟨fun _ _ h => h, rfl, rfl, rfl⟩
  next =>
    obtain ⟨-, hrest⟩ := Prod.mk.inj (Option.some.inj h)
    obtain ⟨rfl, -⟩ := Prod.mk.inj hrest
    exact .refl _

/-! ### The registration of a type -/

/-- A type is declared under a new name, or an error leaves what was there. -/
theorem insertType_run {name : ResolvedName} {definition : TypeDefinition} {error : String}
    {rt rt' : Rt} {r : Except String Unit} {trace : List Call}
    (h : (insertType name definition error).run rt = some (r, rt', trace)) :
    trace = [] ∧
      ((∃ rt₁, r = .ok () ∧ Grows rt rt₁ ∧ rt.graph.declarations name = none ∧
          (∃ dec, rt₁.graph.declarations name = some dec ∧ dec.kind = .type) ∧
          rt' = { rt₁ with definitions := (name, definition) :: rt₁.definitions }) ∨
        r = .error error ∧ Grows rt rt') := by
  unfold insertType at h
  rcases Traced.bind_cases h with ⟨e, hwrap, -⟩ | ⟨newScope, rt₁, t₁, t₂, hwrap, hafter, rfl⟩
  · change wrap name.scope .other rt = _ at hwrap
    unfold wrap at hwrap
    split_ifs at hwrap <;> cases hwrap
  obtain ⟨rfl, hgrows, hback⟩ := wrap_run hwrap
  rcases Traced.bind_cases hafter with
    ⟨e, hinsert, rfl⟩ | ⟨_, rt₂, t₁, t₃, hinsert, hmodify, rfl⟩
  · obtain ⟨rfl, hgrows', hcases⟩ := insertDeclaration_run hinsert
    refine ⟨rfl, .inr ⟨?_, hgrows.trans hgrows'⟩⟩
    rcases hcases with ⟨hok, -⟩ | herror
    · cases hok
    · exact herror
  · obtain ⟨rfl, hgrows', hcases⟩ := insertDeclaration_run hinsert
    obtain ⟨rfl, rfl, rfl⟩ := Traced.modify_run hmodify
    rcases hcases with ⟨-, hnone, hdec⟩ | herror
    · refine ⟨rfl, .inl ⟨rt₂, rfl, hgrows.trans hgrows', ?_, ⟨_, hdec, rfl⟩, rfl⟩⟩
      cases hold : rt.graph.declarations name with
      | none => rfl
      | some dec =>
        rw [hgrows.declarations _ _ hold] at hnone
        cases hnone
    · cases herror

theorem resolveTypeName_cons (types : TypeMap) (name n : ResolvedName) (d : TypeDefinition) :
    TypeMap.resolveTypeName ((name, d) :: types) n =
      if n = name then some d else types.resolveTypeName n := by
  unfold TypeMap.resolveTypeName
  rw [List.lookup_cons]
  by_cases h : n = name
  · simp [h]
  · have hne : (n == name) = false := beq_eq_false_iff_ne.mpr h
    rw [hne, if_neg h]

/-- A name that is taken for a built-in type changes nothing; another one is declared. -/
theorem declareRuntimeType_run {scope : ScopeRef} {ident : Identifier} {typeId : ℕ}
    {rt rt' : Rt} {r : Except String Unit} {trace : List Call}
    (h : (declareRuntimeType scope ident typeId).run rt = some (r, rt', trace)) :
    trace = [⟨rt, scope, ident, typeId⟩] ∧
      ((∃ nd, rt.builtin scope ident = some nd) ∧ rt' = rt ∨
        (∃ rt₁, Grows rt rt₁ ∧ rt.graph.declarations ⟨scope, ident⟩ = none ∧
          (∃ dec, rt₁.graph.declarations ⟨scope, ident⟩ = some dec ∧ dec.kind = .type) ∧
          rt' = { rt₁ with
            definitions := (⟨scope, ident⟩, .runtime ⟨scope, ident⟩ typeId) :: rt₁.definitions
            typeMap := (⟨scope, ident⟩, .runtime ⟨scope, ident⟩ typeId) :: rt₁.typeMap }) ∨
        (∃ e, r = .error e) ∧ Grows rt rt') := by
  unfold declareRuntimeType at h
  rw [Traced.get_bind_run, Traced.report_bind_run] at h
  obtain ⟨⟨r₁, rt₁, t₁⟩, hrun, heq⟩ := Option.map_eq_some_iff.mp h
  cases heq
  cases hbuiltin : rt.builtin scope ident with
  | some nd =>
    simp only [hbuiltin] at hrun
    obtain ⟨-, rfl, rfl⟩ := Traced.ofPure_run hrun
    exact ⟨rfl, .inl ⟨⟨nd, rfl⟩, rfl⟩⟩
  | none =>
    simp only [hbuiltin] at hrun
    rcases Traced.bind_cases hrun with ⟨e, hinsert, rfl⟩ | ⟨_, rt₂, t₂, t₃, hinsert, hmodify, rfl⟩
    · obtain ⟨rfl, hcases⟩ := insertType_run hinsert
      rcases hcases with ⟨rt₃, hok, -⟩ | ⟨-, hgrows⟩
      · cases hok
      · exact ⟨rfl, .inr (.inr ⟨⟨e, rfl⟩, hgrows⟩)⟩
    · obtain ⟨rfl, hcases⟩ := insertType_run hinsert
      obtain ⟨rfl, rfl, rfl⟩ := Traced.modify_run hmodify
      rcases hcases with ⟨rt₃, -, hgrows, hnone, hdec, rfl⟩ | ⟨herror, -⟩
      · exact ⟨rfl, .inr (.inl ⟨rt₃, hgrows, hnone, hdec, rfl⟩)⟩
      · cases herror

/-- A built-in type is one that is defined. -/
theorem builtin_defined {rt : Rt} {scope : ScopeRef} {ident : Identifier} {n : ResolvedName}
    {d : TypeDefinition} (h : rt.builtin scope ident = some (n, d)) :
    rt.definitions.resolveTypeName n = some d := by
  unfold Rt.builtin at h
  split at h
  · cases h
  · split at h
    · next hd =>
      obtain ⟨rfl, rfl⟩ := Prod.mk.inj (Option.some.inj h)
      exact hd
    · next hd =>
      obtain ⟨rfl, rfl⟩ := Prod.mk.inj (Option.some.inj h)
      exact hd
    · cases h

theorem rustTypeOf_runtime {d : TypeDefinition} {id : ℕ} {n : ResolvedName} {m : ℕ}
    (h : rustTypeOf ids d = some id) : d ≠ .runtime n m := by
  rintro rfl
  cases h

/-- The list with one more type. -/
theorem Faithful.push {rt : Rt} {r : RuntimeType} (h : Faithful ids rt)
    (hdeclared : Declared ids rt r) (hone : OneType ids r)
    (hnew : ∀ s ∈ rt.types, s.typeId ≠ r.typeId)
    (hname : ∀ s ∈ rt.types, s.name ≠ r.name) :
    Faithful ids { rt with types := rt.types ++ [r] } where
  declared := by
    intro s hs
    rcases List.mem_append.mp hs with hs | hs
    · exact h.declared s hs
    · obtain rfl := List.mem_singleton.mp hs
      exact hdeclared
  oneType := by
    intro s hs
    rcases List.mem_append.mp hs with hs | hs
    · exact h.oneType s hs
    · obtain rfl := List.mem_singleton.mp hs
      exact hone
  distinct := by
    refine List.pairwise_append.mpr ⟨h.distinct, List.pairwise_singleton .., ?_⟩
    intro s hs t ht
    obtain rfl := List.mem_singleton.mp ht
    exact ⟨hnew s hs, hname s hs⟩
  defined := h.defined
  builtins := h.builtins
  maps := h.maps

/-- A definition under a new name leaves the others as they are. -/
theorem Faithful.define {rt rt₁ : Rt} {name : ResolvedName} {d : TypeDefinition}
    (h : Faithful ids rt) (hgrows : Grows rt rt₁) (hnone : rt.graph.declarations name = none)
    (hdec : ∃ dec, rt₁.graph.declarations name = some dec ∧ dec.kind = .type) :
    Faithful ids { rt₁ with
      definitions := (name, d) :: rt₁.definitions
      typeMap := (name, d) :: rt₁.typeMap } := by
  have h₁ := h.grows hgrows
  have hne : ∀ n e, rt.definitions.resolveTypeName n = some e → n ≠ name := by
    rintro n e hn rfl
    obtain ⟨dec, hold, -⟩ := h.defined _ _ hn
    rw [hnone] at hold
    cases hold
  have hkeep : ∀ n e, rt.definitions.resolveTypeName n = some e →
      TypeMap.resolveTypeName ((name, d) :: rt₁.definitions) n = some e := by
    intro n e hn
    rw [resolveTypeName_cons, if_neg (hne n e hn), hgrows.definitions]
    exact hn
  exact {
    declared := by
      intro r hr
      obtain ⟨hdecl, e, he, hcases⟩ := h₁.declared r hr
      rw [hgrows.definitions] at he
      exact ⟨hdecl, e, hkeep _ _ he, hcases⟩
    oneType := h₁.oneType
    distinct := h₁.distinct
    defined := by
      intro n e hn
      rw [resolveTypeName_cons] at hn
      split_ifs at hn with heq
      · rw [heq]
        exact hdec
      · exact h₁.defined n e hn
    builtins := fun e he => hkeep _ _ (h.builtins e he)
    maps := by
      show (name, d) :: rt₁.typeMap = (name, d) :: rt₁.definitions
      rw [h₁.maps] }

theorem keeps_declareType (scope : ScopeRef) (ty : TypeItem ids) :
    KeepsFaithful ids (declareType ids scope ty) := by
  intro rt r rt' trace hrt h hok
  unfold declareType at h
  rw [Traced.get_bind_run] at h
  cases hold : rt.types.find? fun oldTy => oldTy.typeId = ty.typeId with
  | some oldTy =>
    simp only [hold] at h
    obtain ⟨-, rfl, -⟩ := Traced.fail_run h
    exact hrt
  | none =>
    simp only [hold] at h
    have hnew : ∀ s ∈ rt.types, s.typeId ≠ ty.typeId := by
      intro s hs heq
      have hfind := List.find?_eq_none.mp hold s hs
      exact hfind (decide_eq_true heq)
    let name : ResolvedName := ⟨scope, ty.ident⟩
    have hone : OneType ids ⟨name, ty.typeId, ty.movability, ty.eqFn, ty.layout⟩ :=
      ⟨ty.sameLayout, ty.sameEq, ty.sameFns⟩
    rcases Traced.bind_cases h with ⟨e, hdeclare, rfl⟩ | ⟨_, rt₁, t₁, t₂, hdeclare, hmodify, rfl⟩
    · obtain ⟨-, ⟨-, rfl⟩ | ⟨rt₂, hgrows, hnone, hdec, rfl⟩ | ⟨-, hgrows⟩⟩ :=
        declareRuntimeType_run hdeclare
      · exact hrt
      · exact hrt.define hgrows hnone hdec
      · exact hrt.grows hgrows
    · obtain ⟨rfl, hcases⟩ := declareRuntimeType_run hdeclare
      obtain ⟨-, rfl, rfl⟩ := Traced.modify_run hmodify
      rcases hcases with ⟨⟨⟨n, d⟩, hbuiltin⟩, rfl⟩ | ⟨rt₂, hgrows, hnone, hdec, rfl⟩ | ⟨⟨e, he⟩, -⟩
      · -- the type is the built-in one, which no other registered type is
        obtain ⟨rfl, hrust⟩ := hok _ (List.mem_append_left _ (List.mem_singleton_self _)) (n, d)
          hbuiltin
        have hd := builtin_defined hbuiltin
        refine hrt.push ⟨hrt.defined _ _ hd, d, hd, .inr hrust⟩ hone hnew ?_
        intro s hs heq
        obtain ⟨-, d', hd', hcases⟩ := hrt.declared s hs
        rw [heq, hd] at hd'
        obtain rfl := Option.some.inj hd'
        rcases hcases with hruntime | hsame
        · exact rustTypeOf_runtime hrust hruntime
        · exact hnew s hs (Option.some.inj (hsame.symm.trans hrust))
      · have hdefine := hrt.define (d := .runtime name ty.typeId) hgrows hnone hdec
        have htypes : rt₂.types = rt.types := hgrows.types
        refine hdefine.push ⟨hdec, .runtime name ty.typeId, ?_, .inl rfl⟩ hone ?_ ?_
        · show TypeMap.resolveTypeName ((name, _) :: rt₂.definitions) name = _
          rw [resolveTypeName_cons, if_pos rfl]
        · intro s hs
          exact hnew s (htypes ▸ hs)
        · -- the name was not declared, so that no registered type has it
          intro s hs heq
          obtain ⟨⟨dec, hdec', -⟩, -⟩ := hrt.declared s (htypes ▸ hs)
          rw [heq, hnone] at hdec'
          cases hdec'
      · cases he

/-! ### Libraries -/

theorem keeps_pure {α : Type} (a : α) : KeepsFaithful ids (pure a : Reg α) := Traced.keeps_ofPure a

theorem keeps_declareRuntimeModule (parent : Option ScopeRef) (ident : Identifier) :
    KeepsFaithful ids (declareRuntimeModule parent ident) := by
  unfold declareRuntimeModule
  refine Traced.keeps_bind (keeps_wrap _ _) fun modScope => ?_
  exact Traced.keeps_bind (keeps_insertDeclaration _ _ _ _) fun _ => keeps_pure _

mutual

theorem keeps_declareModulesOf (scope : Option ScopeRef) (item : Item ids) :
    KeepsFaithful ids (declareModulesOf ids scope item) := by
  cases item with
  | module ident children =>
    rw [declareModulesOf]
    refine Traced.keeps_bind (keeps_declareRuntimeModule _ _) fun modScope => ?_
    exact keeps_declareModules (some modScope) children
  | _ => exact keeps_pure _

theorem keeps_declareModules (scope : Option ScopeRef) (items : List (Item ids)) :
    KeepsFaithful ids (declareModules ids scope items) := by
  cases items with
  | nil => exact keeps_pure _
  | cons item items =>
    rw [declareModules]
    exact Traced.keeps_bind (keeps_declareModulesOf _ _) fun _ => keeps_declareModules _ _

end

/-- The items of a module, in its scope. -/
theorem keeps_inScopeOf {scope : ScopeRef} {ident : Identifier} {k : ScopeRef → Reg Unit}
    (hk : ∀ inner, KeepsFaithful ids (k inner)) :
    KeepsFaithful ids (do
      let rt ← Traced.get
      let inner ← Traced.unwrap (rt.scopeOf scope ident)
      k inner) :=
  Traced.keeps_get_bind fun _ => Traced.keeps_bind (Traced.keeps_unwrap _) hk

mutual

theorem keeps_declareTypesOf (scope : ScopeRef) (item : Item ids) :
    KeepsFaithful ids (declareTypesOf ids scope item) := by
  cases item with
  | module ident children =>
    rw [declareTypesOf]
    exact keeps_inScopeOf fun inner => keeps_declareTypes inner children
  | type ty => exact keeps_declareType _ _
  | _ => exact keeps_pure _

theorem keeps_declareTypes (scope : ScopeRef) (items : List (Item ids)) :
    KeepsFaithful ids (declareTypes ids scope items) := by
  cases items with
  | nil => exact keeps_pure _
  | cons item items =>
    rw [declareTypes]
    exact Traced.keeps_bind (keeps_declareTypesOf _ _) fun _ => keeps_declareTypes _ _

end

theorem keeps_declareTypeParams (scope : ScopeRef) (idents : List Identifier) :
    KeepsFaithful ids (declareTypeParams scope idents) := by
  induction idents with
  | nil => exact keeps_pure _
  | cons ident idents ih =>
    intro rt r rt' trace hrt h hok
    change declareTypeParams scope (ident :: idents) rt = _ at h
    unfold declareTypeParams at h
    split at h
    next rt₁ t₁ hinsert =>
      have hrt₁ : Faithful ids rt₁ := hrt.grows (insertDeclaration_run hinsert).2.1
      exact ih rt₁ r rt' trace hrt₁ h hok
    next => cases h

theorem keeps_convertTypes (tys : List RustTy) : KeepsFaithful ids (convertTypes ids tys) := by
  induction tys with
  | nil => exact keeps_pure _
  | cons ty tys ih =>
    refine Traced.keeps_get_bind fun rt => ?_
    exact Traced.keeps_bind (Traced.keeps_ofExcept _) fun _ => ih

theorem keeps_declareFunction (scope : ScopeRef) (f : FunctionItem) (method : Bool) :
    KeepsFaithful ids (declareFunction ids scope f method) := by
  refine Traced.keeps_bind ?_ fun _ => keeps_insertDeclaration _ _ _ _
  unfold declareSignature
  cases f.sig with
  | some typeParams =>
    exact Traced.keeps_bind (keeps_wrap _ _) fun paramScope => keeps_declareTypeParams _ _
  | none => exact keeps_convertTypes _

theorem keeps_declareConstant (scope : ScopeRef) (c : ConstantItem) :
    KeepsFaithful ids (declareConstant ids scope c) := by
  refine Traced.keeps_get_bind fun rt => ?_
  refine Traced.keeps_bind (Traced.keeps_ofExcept _) fun _ => ?_
  exact keeps_insertDeclaration _ _ _ _

theorem keeps_implScope (ty : ℕ) : KeepsFaithful ids (implScope ty) := by
  refine Traced.keeps_get_bind fun rt => ?_
  cases rt.getRuntimeType ty with
  | none => exact Traced.keeps_fail _
  | some ty => exact Traced.keeps_unwrap _

theorem keeps_declareMethods (scope : ScopeRef) (items : List (Item ids)) :
    KeepsFaithful ids (declareMethods ids scope items) := by
  induction items with
  | nil => exact keeps_pure _
  | cons item items ih =>
    refine Traced.keeps_bind ?_ fun _ => ih
    cases item with
    | function f => exact keeps_declareFunction _ _ _
    | use _ => exact keeps_pure _
    | constant _ => exact keeps_pure _
    | impl _ _ => exact Traced.keeps_fail _
    | type _ => exact Traced.keeps_fail _
    | module _ _ => exact Traced.keeps_fail _

mutual

theorem keeps_declareFunctionsOf (scope : ScopeRef) (item : Item ids) :
    KeepsFaithful ids (declareFunctionsOf ids scope item) := by
  cases item with
  | module ident children =>
    rw [declareFunctionsOf]
    exact keeps_inScopeOf fun inner => keeps_declareFunctions inner children
  | function f => exact keeps_declareFunction _ _ _
  | impl ty children =>
    rw [declareFunctionsOf]
    exact Traced.keeps_bind (keeps_implScope _) fun inner => keeps_declareMethods _ _
  | _ => exact keeps_pure _

theorem keeps_declareFunctions (scope : ScopeRef) (items : List (Item ids)) :
    KeepsFaithful ids (declareFunctions ids scope items) := by
  cases items with
  | nil => exact keeps_pure _
  | cons item items =>
    rw [declareFunctions]
    exact Traced.keeps_bind (keeps_declareFunctionsOf _ _) fun _ => keeps_declareFunctions _ _

end

mutual

theorem keeps_declareConstantsOf (scope : ScopeRef) (item : Item ids) :
    KeepsFaithful ids (declareConstantsOf ids scope item) := by
  cases item with
  | module ident children =>
    rw [declareConstantsOf]
    exact keeps_inScopeOf fun inner => keeps_declareConstants inner children
  | impl ty children =>
    rw [declareConstantsOf]
    exact Traced.keeps_bind (keeps_implScope _) fun inner => keeps_declareConstants inner children
  | constant c => exact keeps_declareConstant _ _
  | _ => exact keeps_pure _

theorem keeps_declareConstants (scope : ScopeRef) (items : List (Item ids)) :
    KeepsFaithful ids (declareConstants ids scope items) := by
  cases items with
  | nil => exact keeps_pure _
  | cons item items =>
    rw [declareConstants]
    exact Traced.keeps_bind (keeps_declareConstantsOf _ _) fun _ => keeps_declareConstants _ _

end

theorem keeps_importScope (scope newScope : ScopeRef) (path : List Identifier) :
    KeepsFaithful ids (importScope scope newScope path) := by
  induction path generalizing newScope with
  | nil => exact keeps_pure _
  | cons part path ih =>
    refine Traced.keeps_get_bind fun rt => ?_
    cases rt.scopeOf scope part with
    | none => exact Traced.keeps_fail _
    | some inner => exact ih inner

theorem keeps_declareImport (scope : ScopeRef) (imports : List (List Identifier)) :
    KeepsFaithful ids (declareImport scope imports) := by
  induction imports with
  | nil => exact keeps_pure _
  | cons path imports ih =>
    refine Traced.keeps_bind (Traced.keeps_unwrap _) fun last => ?_
    refine Traced.keeps_bind (keeps_importScope _ _ _) fun newScope => ?_
    exact Traced.keeps_bind (keeps_insertImport _ _) fun _ => ih

mutual

theorem keeps_declareImportsOf (scope : ScopeRef) (item : Item ids) :
    KeepsFaithful ids (declareImportsOf ids scope item) := by
  cases item with
  | use imports => exact keeps_declareImport _ _
  | module ident children =>
    rw [declareImportsOf]
    exact keeps_declareImports scope children
  | _ => exact keeps_pure _

theorem keeps_declareImports (scope : ScopeRef) (items : List (Item ids)) :
    KeepsFaithful ids (declareImports ids scope items) := by
  cases items with
  | nil => exact keeps_pure _
  | cons item items =>
    rw [declareImports]
    exact Traced.keeps_bind (keeps_declareImportsOf _ _) fun _ => keeps_declareImports _ _

end

theorem keeps_add (items : List (Item ids)) : KeepsFaithful ids (add ids items) := by
  refine Traced.keeps_bind (keeps_declareModules _ _) fun _ => ?_
  refine Traced.keeps_bind (keeps_declareTypes _ _) fun _ => ?_
  refine Traced.keeps_bind (keeps_declareFunctions _ _) fun _ => ?_
  exact Traced.keeps_bind (keeps_declareConstants _ _) fun _ => keeps_declareImports _ _

theorem faithful_addAll {libs : List (List (Item ids))} {rt rt' : Rt} {calls : List Call}
    (hrt : Faithful ids rt) (h : addAll ids libs rt = some (rt', calls))
    (hmeets : ∀ c ∈ calls, c.Meets ids) : Faithful ids rt' := by
  induction libs generalizing rt calls with
  | nil =>
    obtain ⟨rfl, -⟩ := Prod.mk.inj (Option.some.inj h)
    exact hrt
  | cons lib libs ih =>
    unfold addAll at h
    split at h
    · cases h
    next r rt₁ calls₁ hadd =>
      split at h
      · cases h
      next rt₂ calls₂ hrest =>
        obtain ⟨rfl, rfl⟩ := Prod.mk.inj (Option.some.inj h)
        have hrt₁ := keeps_add lib rt r rt₁ calls₁ hrt hadd fun c hc =>
          hmeets c (List.mem_append_left _ hc)
        exact ih hrt₁ hrest fun c hc => hmeets c (List.mem_append_right _ hc)

/-! ### The built-in types -/

theorem new_types : Rt.new.types = [] := by
  have h : Rt.new.types.isEmpty = true := by decide +kernel
  exact List.isEmpty_iff.mp h

theorem new_definitions :
    Rt.new.definitions = (defaultTypes.map fun e => (⟨ScopeRef.GLOBAL, e.1⟩, e.2)).reverse := by
  decide +kernel

theorem new_declared : ∀ e ∈ defaultTypes,
    ((Rt.new.graph.declarations ⟨ScopeRef.GLOBAL, e.1⟩).any fun d => d.kind = .type) = true := by
  decide +kernel

theorem new_faithful (ids : RustTypes) : Faithful ids Rt.new where
  declared := by
    rw [new_types]
    intro r hr
    cases hr
  oneType := by
    rw [new_types]
    intro r hr
    cases hr
  distinct := by
    rw [new_types]
    exact .nil
  defined := by
    intro n d hd
    have hmem := TypeMap.mem_of_resolveTypeName hd
    rw [new_definitions, List.mem_reverse] at hmem
    obtain ⟨e, he, heq⟩ := List.mem_map.mp hmem
    obtain ⟨rfl, -⟩ := Prod.mk.inj heq
    obtain ⟨dec, hdec, hkind⟩ := (Option.any_eq_true _ _).mp (new_declared e he)
    exact ⟨dec, hdec, of_decide_eq_true hkind⟩
  builtins := by
    rw [new_definitions]
    decide +kernel
  maps := by decide +kernel

/-! ### From Rust types to MIR types -/

/-- No part of the type is the list type without elements, which functions of this crate name
only in explicit signatures. -/
def Mappable (ids : RustTypes) : RustTy → Prop
  | .option t => Mappable ids t
  | .verdict a r => Mappable ids a ∧ Mappable ids r
  | .result a r => Mappable ids a ∧ Mappable ids r
  | .list t => Mappable ids t
  | τ => leafId ids τ ≠ some ids.erasedList

/-- The MIR type has the layout and the functions of the Rust type: it is the primitive of that
type, or the registered type with its id. -/
inductive Stands (ids : RustTypes) (rt : Rt) : RustTy → Mir.Ty → Prop where
  | unit : Stands ids rt .unit .unit
  | primitive {τ : RustTy} {p : Primitive} (h : leafId ids τ = some (ids.primitive p)) :
      Stands ids rt τ (.primitive p)
  | runtime {τ : RustTy} {r : RuntimeType} (h : leafId ids τ = some r.typeId)
      (hget : rt.getRuntimeType r.typeId = some r) (hone : OneType ids r) :
      Stands ids rt τ (.runtime r.typeId)
  | option {τ : RustTy} {t : Mir.Ty} (h : Stands ids rt τ t) :
      Stands ids rt (.option τ) (.enum [("Some", [t]), ("None", [])])
  | verdict {τ σ : RustTy} {t u : Mir.Ty} (ha : Stands ids rt τ t) (hr : Stands ids rt σ u) :
      Stands ids rt (.verdict τ σ) (.enum [("Accept", [t]), ("Reject", [u])])
  | result {τ σ : RustTy} {t u : Mir.Ty} (ht : Stands ids rt τ t) (he : Stands ids rt σ u) :
      Stands ids rt (.result τ σ) (.enum [("Ok", [t]), ("Err", [u])])
  | list {τ : RustTy} {t : Mir.Ty} (h : Stands ids rt τ t) : Stands ids rt (.list τ) (.list t)

/-- `convert` returns, from any store. -/
def Converts (types : TypeMap) (t : Typ) (ty : Mir.Ty) : Prop :=
  ∃ n, ∀ fuel uf, convert types (n + fuel) uf t = some (some ty, uf)

section
variable {types : TypeMap}

theorem convert_name {fuel : ℕ} {uf : UnionFind} {n : ResolvedName} {args : List Typ} :
    convert types (fuel + 1) uf (.name n args) =
      convertResolved types (convert types fuel) uf (.name n args) := rfl

theorem converts_unit : Converts types .unit .unit := by
  refine ⟨1, fun fuel uf => ?_⟩
  rw [Nat.add_comm]
  rfl

theorem converts_name {n : ResolvedName} {args : List Typ} {ty : Mir.Ty} (k : ℕ)
    (h : ∀ fuel uf, convertResolved types (convert types (k + fuel)) uf (.name n args) =
      some (some ty, uf)) : Converts types (.name n args) ty := by
  refine ⟨k + 1, fun fuel uf => ?_⟩
  have hfuel : k + 1 + fuel = (k + fuel) + 1 := by omega
  rw [hfuel, convert_name]
  exact h fuel uf

/-- An enum whose first variant holds the first argument, and the second one what is left. -/
theorem converts_pair {n tn : ResolvedName} {v w s s' : Identifier} {a b : Typ}
    {ta tb : Mir.Ty} (hclosed : ∀ s u, a.substitute (.explicitVar s) u = a) (hne : s ≠ s')
    (hd : types.resolveTypeName n = some (.enum ⟨tn, [.explicitVar s, .explicitVar s']⟩
      [⟨v, [.explicitVar s]⟩, ⟨w, [.explicitVar s']⟩]))
    (ha : Converts types a ta) (hb : Converts types b tb) :
    Converts types (.name n [a, b]) (.enum [(v, [ta]), (w, [tb])]) := by
  obtain ⟨k, hk⟩ := ha
  obtain ⟨m, hm⟩ := hb
  have hfirst : (Typ.explicitVar s).substituteMany [(.explicitVar s, a), (.explicitVar s', b)] =
      a := by
    simp only [Typ.substituteMany, List.foldl_cons, List.foldl_nil, Typ.substitute, if_true]
    exact hclosed s' b
  have hsecond : (Typ.explicitVar s').substituteMany
      [(.explicitVar s, a), (.explicitVar s', b)] = b := by
    simp [Typ.substituteMany, Typ.substitute, hne.symm]
  refine converts_name (k + m) fun fuel uf => ?_
  have hka : convert types (k + m + fuel) uf a = some (some ta, uf) := by
    rw [Nat.add_assoc]
    exact hk _ uf
  have hmb : convert types (k + m + fuel) uf b = some (some tb, uf) := by
    have hfuel : k + m + fuel = m + (k + fuel) := by omega
    rw [hfuel]
    exact hm _ uf
  simp [convertResolved, hd, EnumVariant.substituteMany, hfirst, hsecond, convertAll,
    convertNamed, ConvertResult.map, hka, hmb]

end

section
variable {rt : Rt}

theorem leafToRotoType_ok {id : ℕ} {t : Typ} (h : leafToRotoType ids rt id = .ok t) :
    ∃ r, rt.getRuntimeType id = some r ∧ r ∈ rt.types ∧ r.typeId = id ∧ t = .name r.name [] := by
  unfold leafToRotoType at h
  cases hget : rt.getRuntimeType id with
  | none => simp [hget] at h
  | some r =>
    simp only [hget] at h
    have hfind := List.find?_some hget
    exact ⟨r, rfl, List.mem_of_find?_eq_some hget, of_decide_eq_true hfind,
      (Except.ok.inj h).symm⟩

/-- A type known by its id gives the registered type, or the primitive that it is. -/
theorem leaf_stands (hrt : Faithful ids rt) {τ : RustTy} {id : ℕ} {t : Typ}
    (hleaf : leafId ids τ = some id) (hlist : id ≠ ids.erasedList)
    (h : leafToRotoType ids rt id = .ok t) :
    ∃ ty, Stands ids rt τ ty ∧ Converts rt.definitions t ty := by
  obtain ⟨r, hget, hr, rfl, rfl⟩ := leafToRotoType_ok h
  obtain ⟨-, d, hd, hcases⟩ := hrt.declared r hr
  rcases hcases with rfl | hrust
  · refine ⟨.runtime r.typeId, .runtime hleaf hget (hrt.oneType r hr), ?_⟩
    refine converts_name 0 fun fuel uf => ?_
    simp only [convertResolved, hd]
  · cases d with
    | primitive p =>
      have hid : ids.primitive p = r.typeId := Option.some.inj hrust
      refine ⟨.primitive p, .primitive (hid ▸ hleaf), ?_⟩
      refine converts_name 0 fun fuel uf => ?_
      simp only [convertResolved, hd]
    | list tn => exact absurd (Option.some.inj hrust).symm hlist
    | _ => cases hrust

theorem bind_ok {α β : Type} {x : Except String α} {k : α → Except String β} {b : β}
    (h : (x >>= k) = .ok b) : ∃ a, x = .ok a ∧ k a = .ok b := by
  cases x with
  | error e => cases h
  | ok a => exact ⟨a, rfl, h⟩

/-- A type with one argument, and one with two. -/
theorem mapOne_ok {x : Except String Typ} {f : Typ → Typ} {t : Typ}
    (h : (do return f (← x)) = Except.ok t) : ∃ a, x = .ok a ∧ t = f a := by
  obtain ⟨a, ha, hk⟩ := bind_ok h
  exact ⟨a, ha, (Except.ok.inj hk).symm⟩

theorem mapTwo_ok {x y : Except String Typ} {f : Typ → Typ → Typ} {t : Typ}
    (h : (do let a ← x; let b ← y; return f a b) = Except.ok t) :
    ∃ a b, x = .ok a ∧ y = .ok b ∧ t = f a b := by
  obtain ⟨a, ha, hk⟩ := bind_ok h
  obtain ⟨b, hb, hk⟩ := bind_ok hk
  exact ⟨a, b, ha, hb, (Except.ok.inj hk).symm⟩

theorem substitute_name_one {n : ResolvedName} {a : Typ} {s : Identifier} {u : Typ}
    (ha : a.substitute (.explicitVar s) u = a) :
    (Typ.name n [a]).substitute (.explicitVar s) u = .name n [a] := by
  simp [Typ.substitute, Typ.substituteList, ha]

theorem substitute_name_two {n : ResolvedName} {a b : Typ} {s : Identifier} {u : Typ}
    (ha : a.substitute (.explicitVar s) u = a) (hb : b.substitute (.explicitVar s) u = b) :
    (Typ.name n [a, b]).substitute (.explicitVar s) u = .name n [a, b] := by
  simp [Typ.substitute, Typ.substituteList, ha, hb]

theorem leafToRotoType_closed {id : ℕ} {t : Typ} (h : leafToRotoType ids rt id = .ok t)
    (s : Identifier) (u : Typ) : t.substitute (.explicitVar s) u = t := by
  obtain ⟨r, -, -, -, rfl⟩ := leafToRotoType_ok h
  simp [Typ.substitute, Typ.substituteList]

/-- No type parameter occurs in the type of a Rust type. -/
theorem rustTypeToRotoType_closed {τ : RustTy} {t : Typ}
    (h : rustTypeToRotoType ids rt τ = .ok t) (s : Identifier) (u : Typ) :
    t.substitute (.explicitVar s) u = t := by
  induction τ generalizing t with
  | unit =>
    obtain rfl := Except.ok.inj h
    simp [Typ.substitute]
  | option τ ih =>
    obtain ⟨a, ha, rfl⟩ := mapOne_ok h
    exact substitute_name_one (ih ha)
  | list τ ih =>
    obtain ⟨a, ha, rfl⟩ := mapOne_ok h
    exact substitute_name_one (ih ha)
  | result τ σ iht ihe =>
    obtain ⟨a, b, ha, hb, rfl⟩ := mapTwo_ok h
    exact substitute_name_two (iht ha) (ihe hb)
  | verdict τ σ iha ihr =>
    obtain ⟨a, b, ha, hb, rfl⟩ := mapTwo_ok h
    exact substitute_name_two (iha ha) (ihr hb)
  | _ => exact leafToRotoType_closed h s u

theorem converts_option (hrt : Faithful ids rt) {a : Typ} {ty : Mir.Ty}
    (ha : Converts rt.definitions a ty) :
    Converts rt.definitions (.option a) (.enum [("Some", [ty]), ("None", [])]) := by
  have hd := hrt.builtins (enumType "Option" ["T"] [⟨"Some", [.explicitVar "T"]⟩, ⟨"None", []⟩])
    (by decide)
  obtain ⟨k, hk⟩ := ha
  have hsubst : (Typ.explicitVar "T").substituteMany [(.explicitVar "T", a)] = a := by
    simp [Typ.substituteMany, Typ.substitute]
  refine converts_name k fun fuel uf => ?_
  have hd' : rt.definitions.resolveTypeName ⟨ScopeRef.GLOBAL, "Option"⟩ = some (.enum
      ⟨⟨ScopeRef.GLOBAL, "Option"⟩, [.explicitVar "T"]⟩
      [⟨"Some", [.explicitVar "T"]⟩, ⟨"None", []⟩]) := hd
  simp [convertResolved, hd', EnumVariant.substituteMany, hsubst, convertAll, convertNamed,
    ConvertResult.map, hk]

theorem converts_list (hrt : Faithful ids rt) {a : Typ} {ty : Mir.Ty}
    (ha : Converts rt.definitions a ty) : Converts rt.definitions (.list a) (.list ty) := by
  have hd : rt.definitions.resolveTypeName ⟨ScopeRef.GLOBAL, "List"⟩ =
      some (.list ⟨⟨ScopeRef.GLOBAL, "List"⟩, [.explicitVar "T"]⟩) :=
    hrt.builtins ("List", .list ⟨⟨ScopeRef.GLOBAL, "List"⟩, [.explicitVar "T"]⟩) (by decide)
  obtain ⟨k, hk⟩ := ha
  refine converts_name k fun fuel uf => ?_
  simp [convertResolved, hd, ConvertResult.map, hk]

/-- What a Rust type is mapped to converts to a MIR type that stands for it. -/
theorem rustTypeToRotoType_stands (hrt : Faithful ids rt) {τ : RustTy} {t : Typ}
    (hτ : Mappable ids τ) (h : rustTypeToRotoType ids rt τ = .ok t) :
    ∃ ty, Stands ids rt τ ty ∧ Converts rt.definitions t ty := by
  induction τ generalizing t with
  | unit =>
    obtain rfl := Except.ok.inj h
    exact ⟨.unit, .unit, converts_unit⟩
  | primitive p => exact leaf_stands hrt rfl (fun heq => hτ (congrArg some heq)) h
  | leaf id => exact leaf_stands hrt rfl (fun heq => hτ (congrArg some heq)) h
  | val id => exact leaf_stands hrt rfl (fun heq => hτ (congrArg some heq)) h
  | dynVal => exact leaf_stands hrt rfl (fun heq => hτ (congrArg some heq)) h
  | vtable => exact leaf_stands hrt rfl (fun heq => hτ (congrArg some heq)) h
  | erasedList => exact absurd rfl hτ
  | option τ ih =>
    obtain ⟨a, ha, rfl⟩ := mapOne_ok h
    obtain ⟨ty, hstands, hconverts⟩ := ih hτ ha
    exact ⟨_, .option hstands, converts_option hrt hconverts⟩
  | list τ ih =>
    obtain ⟨a, ha, rfl⟩ := mapOne_ok h
    obtain ⟨ty, hstands, hconverts⟩ := ih hτ ha
    exact ⟨_, .list hstands, converts_list hrt hconverts⟩
  | result τ σ iht ihe =>
    obtain ⟨a, b, ha, hb, rfl⟩ := mapTwo_ok h
    obtain ⟨ta, hta, hca⟩ := iht hτ.1 ha
    obtain ⟨tb, htb, hcb⟩ := ihe hτ.2 hb
    have hd := hrt.builtins
      (enumType "Result" ["T", "E"] [⟨"Ok", [.explicitVar "T"]⟩, ⟨"Err", [.explicitVar "E"]⟩])
      (by decide)
    exact ⟨_, .result hta htb,
      converts_pair (rustTypeToRotoType_closed ha) (by decide) hd hca hcb⟩
  | verdict τ σ iha ihr =>
    obtain ⟨a, b, ha, hb, rfl⟩ := mapTwo_ok h
    obtain ⟨ta, hta, hca⟩ := iha hτ.1 ha
    obtain ⟨tb, htb, hcb⟩ := ihr hτ.2 hb
    have hd := hrt.builtins (enumType "Verdict" ["A", "R"]
      [⟨"Accept", [.explicitVar "A"]⟩, ⟨"Reject", [.explicitVar "R"]⟩]) (by decide)
    exact ⟨_, .verdict hta htb,
      converts_pair (rustTypeToRotoType_closed ha) (by decide) hd hca hcb⟩

end

/-! ### Runs -/

/-- The registered types have declarations of their own, distinct names, and are mapped to MIR
types that stand for them. -/
structure TypesFaithful (ids : RustTypes) (rt : Rt) : Prop where
  declared : ∀ r ∈ rt.types, Declared ids rt r
  distinct : ∀ r ∈ rt.types, ∀ s ∈ rt.types, r.typeId ≠ s.typeId → r.name ≠ s.name
  mapped : ∀ τ t, Mappable ids τ → rustTypeToRotoType ids rt τ = .ok t →
    ∃ ty, Stands ids rt τ ty ∧ Converts rt.definitions t ty

theorem Faithful.typesFaithful {rt : Rt} (h : Faithful ids rt) : TypesFaithful ids rt where
  declared := h.declared
  distinct := by
    intro r hr s hs hne
    have hsymm : Std.Symm fun r s : RuntimeType => r.typeId ≠ s.typeId ∧ r.name ≠ s.name :=
      ⟨fun r s hrs => ⟨hrs.1.symm, hrs.2.symm⟩⟩
    by_cases heq : r = s
    · exact absurd (congrArg RuntimeType.typeId heq) hne
    · exact (h.distinct.forall hr hs heq).2
  mapped := fun τ t hτ ht => rustTypeToRotoType_stands h hτ ht

/-! ### The built-in library and modules -/

namespace Example

theorem mem_primitives (p : Primitive) : p ∈ primitives := by
  cases p with
  | int kind size => cases kind <;> cases size <;> decide
  | float size => cases size <;> decide
  | _ => decide

def rustTypes : RustTypes where
  layout := fun _ => .eight
  primitive := fun p => primitives.idxOf p
  erasedList := 16
  dynVal := 17
  vtable := 18
  rustName := fun _ => "T"
  primitive_injective := by
    intro p q h
    exact (List.idxOf_inj (mem_primitives p)).mp h
  primitive_ne_list := by
    intro p h
    have hlt := List.idxOf_lt_length_of_mem (mem_primitives p)
    have hlength : primitives.length = 16 := rfl
    omega

def typeItem (ident : Identifier) (typeId : ℕ) : Item rustTypes :=
  .type ⟨ident, "T", typeId, .eight, .copy, typeId, (by intro _ _ h; cases h), rfl, rfl⟩

/-- The types of primitives and lists. -/
def builtIns : List (Item rustTypes) :=
  primitives.map (fun p => typeItem p.ident (rustTypes.primitive p)) ++ [typeItem "List" rustTypes.erasedList]

/-- A module with one type of the given name. -/
def moduleWith (ident : Identifier) : List (Item rustTypes) := [.module "foo" [typeItem ident 20]]

end Example

/-- In a run in which no type takes the name of another built-in type, every state is
faithful. -/
theorem add_keeps_types_faithful {libs : List (List (Item ids))} {rt : Rt} {calls : List Call}
    (h : addAll ids libs Rt.new = some (rt, calls)) (hmeets : ∀ c ∈ calls, c.Meets ids) :
    TypesFaithful ids rt :=
  (faithful_addAll (new_faithful ids) h hmeets).typesFaithful

theorem add_keeps_types_faithful_foo :
    ∃ rt calls, addAll Example.rustTypes [Example.builtIns, Example.moduleWith "Foo"] Rt.new =
      some (rt, calls) ∧ TypesFaithful Example.rustTypes rt := by
  have h : ((addAll Example.rustTypes [Example.builtIns, Example.moduleWith "Foo"] Rt.new).any
      fun p => ∀ c ∈ p.2, c.Meets Example.rustTypes) = true := by decide +kernel
  obtain ⟨⟨rt, calls⟩, hrun, hmeets⟩ := (Option.any_eq_true _ _).mp h
  exact ⟨rt, calls, hrun, add_keeps_types_faithful hrun (of_decide_eq_true hmeets)⟩

/-- A type `String` in a module is in the list of types without a declaration. -/
theorem module_string_undeclared :
    ¬ ∀ (ids : RustTypes) (libs : List (List (Item ids))) rt calls,
      addAll ids libs Rt.new = some (rt, calls) → TypesFaithful ids rt := by
  intro hall
  have h : ((addAll Example.rustTypes [Example.builtIns, Example.moduleWith "String"] Rt.new).any
      fun p => p.1.types.any fun r => (p.1.graph.declarations r.name).isNone) = true := by
    decide +kernel
  obtain ⟨⟨rt, calls⟩, hrun, hany⟩ := (Option.any_eq_true _ _).mp h
  obtain ⟨r, hr, hnone⟩ := List.any_eq_true.mp hany
  obtain ⟨⟨dec, hdec, -⟩, -⟩ := (hall _ _ rt calls hrun).declared r hr
  rw [hdec] at hnone
  cases hnone

/-! ### The registry of a runtime -/

/-- What is registered, as the boundary with Rust looks it up. -/
def Faithful.registry {rt : Rt} (h : Faithful ids rt)
    (hwf : ∀ p ∈ rt.definitions, p.2.WellFormed rt.definitions) : Value.Registry where
  types := rt.definitions
  wellFormed := hwf
  typeName id := (rt.getRuntimeType id).map RuntimeType.name
  primitive p := h.builtins (p.ident, .primitive p)
    (List.mem_append_left _ (List.mem_map.mpr ⟨p, Example.mem_primitives p, rfl⟩))
  option := h.builtins
    (enumType "Option" ["T"] [⟨"Some", [.explicitVar "T"]⟩, ⟨"None", []⟩]) (by decide)
  verdict := h.builtins (enumType "Verdict" ["A", "R"]
    [⟨"Accept", [.explicitVar "A"]⟩, ⟨"Reject", [.explicitVar "R"]⟩]) (by decide)
  result := h.builtins
    (enumType "Result" ["T", "E"] [⟨"Ok", [.explicitVar "T"]⟩, ⟨"Err", [.explicitVar "E"]⟩])
    (by decide)
  list := h.builtins ("List", .list ⟨⟨ScopeRef.GLOBAL, "List"⟩, [.explicitVar "T"]⟩) (by decide)
  registered := by
    intro typeId n d hname hd
    obtain ⟨r, hr, rfl⟩ := Option.map_eq_some_iff.mp hname
    have hfind : rt.types.find? (fun ty => ty.typeId = typeId) = some r := hr
    have hid : r.typeId = typeId := by simpa using List.find?_some hfind
    subst hid
    obtain ⟨-, d', hd', hkind⟩ := h.declared r (List.mem_of_find?_eq_some hfind)
    obtain rfl := Option.some.inj (hd.symm.trans hd')
    rcases hkind with rfl | hof
    · exact Or.inl rfl
    · cases d with
      | primitive p => exact Or.inr (Or.inl ⟨p, rfl⟩)
      | list tn => exact Or.inr (Or.inr ⟨tn, rfl⟩)
      | _ => cases hof

/-- The built-in types are registered under their own names, and there are no names for the two
Rust types that no script has values of. -/
structure Rt.HasBuiltIns (ids : RustTypes) (rt : Rt) : Prop where
  primitive : ∀ p, (rt.getRuntimeType (ids.primitive p)).map RuntimeType.name =
    some ⟨ScopeRef.GLOBAL, p.ident⟩
  erasedList : (rt.getRuntimeType ids.erasedList).map RuntimeType.name =
    some ⟨ScopeRef.GLOBAL, "List"⟩
  dynVal : rt.getRuntimeType ids.dynVal = none
  vtable : rt.getRuntimeType ids.vtable = none

/-- The library with the built-in types registers them so. -/
example : ∃ rt calls, addAll Example.rustTypes [Example.builtIns] Rt.new = some (rt, calls) ∧
    rt.HasBuiltIns Example.rustTypes := by
  have h : ((addAll Example.rustTypes [Example.builtIns] Rt.new).any fun q =>
      (∀ p ∈ primitives, (q.1.getRuntimeType (Example.rustTypes.primitive p)).map RuntimeType.name =
        some ⟨ScopeRef.GLOBAL, p.ident⟩) ∧
      (q.1.getRuntimeType 16).map RuntimeType.name = some ⟨ScopeRef.GLOBAL, "List"⟩ ∧
      (q.1.getRuntimeType 17).isNone ∧ (q.1.getRuntimeType 18).isNone) = true := by
    decide +kernel
  obtain ⟨⟨rt, calls⟩, hrun, hall⟩ := (Option.any_eq_true _ _).mp h
  obtain ⟨hprimitive, hlist, hdyn, hvtable⟩ := of_decide_eq_true hall
  exact ⟨rt, calls, hrun, fun p => hprimitive p (Example.mem_primitives p), hlist,
    Option.isNone_iff_eq_none.mp hdyn, Option.isNone_iff_eq_none.mp hvtable⟩

theorem leafToRotoType_toOption (rt : Rt) (id : ℕ) :
    (leafToRotoType ids rt id).toOption =
      ((rt.getRuntimeType id).map RuntimeType.name).map fun n => .name n [] := by
  unfold leafToRotoType
  cases rt.getRuntimeType id with
  | none => rfl
  | some r => rfl

theorem toOption_bind {ε α β : Type} (x : Except ε α) (f : α → Except ε β) :
    (x >>= f).toOption = x.toOption.bind fun a => (f a).toOption := by
  cases x with
  | error e => rfl
  | ok a => rfl

/-- The two ways to look a Rust type up agree, by the types of a runtime and by the names that
it has for them. -/
theorem registry_rustTypeToRotoType {rt : Rt} (h : Faithful ids rt)
    (hwf : ∀ p ∈ rt.definitions, p.2.WellFormed rt.definitions) (hb : rt.HasBuiltIns ids)
    (τ : RustTy) :
    Value.rustTypeToRotoType (h.registry hwf) τ = (rustTypeToRotoType ids rt τ).toOption := by
  induction τ with
  | unit => rfl
  | primitive p =>
    rw [rustTypeToRotoType, leafToRotoType_toOption, hb.primitive p]
    rfl
  | leaf id | val id =>
    rw [rustTypeToRotoType, leafToRotoType_toOption]
    rfl
  | dynVal =>
    rw [rustTypeToRotoType, leafToRotoType_toOption, hb.dynVal]
    rfl
  | vtable =>
    rw [rustTypeToRotoType, leafToRotoType_toOption, hb.vtable]
    rfl
  | erasedList =>
    rw [rustTypeToRotoType, leafToRotoType_toOption, hb.erasedList]
    rfl
  | option t ih =>
    rw [rustTypeToRotoType, Value.rustTypeToRotoType, ih, toOption_bind]
    rfl
  | list t ih =>
    rw [rustTypeToRotoType, Value.rustTypeToRotoType, ih, toOption_bind]
    rfl
  | result t e iht ihe =>
    rw [rustTypeToRotoType, Value.rustTypeToRotoType, iht, ihe, toOption_bind]
    simp only [toOption_bind]
    rfl
  | verdict a r iha ihr =>
    rw [rustTypeToRotoType, Value.rustTypeToRotoType, iha, ihr, toOption_bind]
    simp only [toOption_bind]
    rfl

end Roto.Runtime
