import Mathlib.Logic.Function.Basic
import RotoCompiler.Ast
import RotoCompiler.TypeChecker.Info

/-!
# Declarations, scopes and errors (typechecker/scope.rs, typechecker/error.rs)

The part of the scope graph that names are looked up in, and the errors about names. The
payloads of declarations that lookup never reads are left out.
-/

namespace Roto.TypeChecker

inductive DeclarationKind where
  | value (kind : ValueKind)
  | type
  | function
  | module
  | method
  | enum
  | typeParam
  deriving DecidableEq, Repr

structure Declaration where
  name : ResolvedName
  kind : DeclarationKind
  id : MetaId
  scope : Option ScopeRef
  deriving DecidableEq, Repr

/-! ### Errors -/

inductive Level where
  | error | info
  deriving DecidableEq, Repr

structure Label where
  level : Level
  id : MetaId
  message : String
  deriving DecidableEq, Repr

structure TypeError where
  description : String
  location : MetaId
  labels : List Label
  deriving DecidableEq, Repr

def errorSimple (description msg : String) (span : MetaId) : TypeError :=
  ⟨description, span, [⟨.error, span, msg⟩]⟩

def errorRecursiveConstant (ident : Identifier) (id : MetaId) : TypeError :=
  errorSimple s!"constant `{ident}` is recursively defined." "references itself" id

def errorConstantUsesContext (ident : Identifier) (id : MetaId) : TypeError :=
  errorSimple s!"constant `{ident}` depends on a context variable."
    "depends on a context variable" id

def errorNotDefined (ident : Meta Identifier) : TypeError :=
  errorSimple s!"cannot find value `{ident.node}` in this scope" "not found in this scope" ident.id

def errorTooManySuper (ident : Meta Identifier) : TypeError :=
  errorSimple "could not resolve name: too many leading `super` keywords"
    "too many leading `super` keywords" ident.id

/-- `describe_declaration`. -/
def DeclarationKind.describe : DeclarationKind → String
  | .value .local => "variable"
  | .value .constant => "constant"
  | .value (.context _) => "context"
  | .type => "type"
  | .function => "function"
  | .module => "module"
  | .method => "method"
  | .enum => "enum"
  | .typeParam => "type parameter"

def errorExpectedModule (ident : Meta Identifier) (declaration : Declaration) : TypeError :=
  errorSimple s!"expected a module, but found {declaration.kind.describe} `{ident.node}`"
    s!"`{ident.node}` is a {declaration.kind.describe}, not a module" ident.id

def errorDeclaredTwice (newDeclaration : Meta Identifier) (oldDeclaration : MetaId) : TypeError :=
  let (itemType, name) :=
    if newDeclaration.node.startsWith "test#" then ("test", (newDeclaration.node.drop 5).toString)
    else ("item", newDeclaration.node)
  ⟨s!"{itemType} `{name}` is declared multiple times", newDeclaration.id,
    [⟨.error, newDeclaration.id, s!"`{name}` redefined here"⟩,
      ⟨.info, oldDeclaration, s!"`{name}` previously declared here"⟩]⟩

/-! ### The scope graph -/

structure ModuleScope where
  name : ResolvedName
  parentModule : Option ScopeRef
  deriving DecidableEq, Repr

/-- The kinds of scopes other than modules are only printed. -/
inductive ScopeType where
  | module (m : ModuleScope)
  | other
  deriving DecidableEq, Repr

/-- An import is entered under the identifier of what is imported, so that only the scope of
its name is kept here. -/
structure Scope where
  scopeType : ScopeType
  parent : Option ScopeRef
  imports : Identifier → Option (MetaId × ScopeRef)

/-- A declaration is entered under its name, the parent of a scope is older, and what is
entered for a parent module is a module with a scope. -/
structure ScopeGraph where
  declarations : ResolvedName → Option Declaration
  scopes : List Scope
  named : ∀ n d, declarations n = some d → d.name = n
  older : ∀ (i : ℕ) (s : Scope) p, scopes[i]? = some s → s.parent = some p → p < i
  parentModules : ∀ s ∈ scopes, ∀ m p, s.scopeType = .module m → m.parentModule = some p →
    ∃ s' m' d, scopes[p]? = some s' ∧ s'.scopeType = .module m' ∧
      declarations m'.name = some d ∧ d.scope.isSome

namespace ScopeGraph

variable (g : ScopeGraph)

/-- The loop of `resolve_name`. It goes up to older scopes, at most as many as there are.
What it unwraps exists: only what is declared is imported. -/
def resolveNameFrom : ℕ → ScopeRef → Identifier → Bool → Option Declaration
  | 0, _, _, _ => none
  | fuel + 1, scope, ident, recurse =>
    match g.declarations ⟨scope, ident⟩ with
    | some d => some d
    | none =>
      if !recurse then none
      else
        match g.scopes[scope]? with
        | none => none
        | some s =>
          match s.imports ident with
          | some (_, importScope) => g.declarations ⟨importScope, ident⟩
          | none =>
            match s.parent with
            | none => none
            | some parent => resolveNameFrom fuel parent ident recurse

def resolveName (scope : ScopeRef) (ident : Identifier) (recurse : Bool) : Option Declaration :=
  g.resolveNameFrom (scope + 1) scope ident recurse

/-- The loop of `parent_module`. -/
def parentModuleFrom : ℕ → ScopeRef → Option Declaration
  | 0, _ => none
  | fuel + 1, scope =>
    match g.scopes[scope]? with
    | none => none
    | some s =>
      match s.scopeType with
      | .module m =>
        match m.parentModule with
        | none => none
        | some p =>
          match (g.scopes[p]?).map Scope.scopeType with
          | some (.module parent) => g.declarations parent.name
          | _ => none
      | .other =>
        match s.parent with
        | none => none
        | some parent => parentModuleFrom fuel parent

def parentModule (scope : ScopeRef) : Option Declaration := g.parentModuleFrom (scope + 1) scope

/-- The imports of a scope. -/
def importsOf (scope : ScopeRef) : Identifier → Option (MetaId × ScopeRef) :=
  (g.scopes[scope]?).elim (fun _ => none) Scope.imports

end ScopeGraph

theorem modify_imports_scopeType {scopes : List Scope} {scope i : ℕ}
    {f : (Identifier → Option (MetaId × ScopeRef)) → Identifier → Option (MetaId × ScopeRef)} :
    ((scopes.modify scope fun s => { s with imports := f s.imports })[i]?).map Scope.scopeType =
      (scopes[i]?).map Scope.scopeType := by
  rw [List.getElem?_modify]
  cases scopes[i]? with
  | none => rfl
  | some s =>
    by_cases h : scope = i <;> simp [h]

/-- The graph with other imports in one scope. -/
def ScopeGraph.withImports (g : ScopeGraph) (scope : ScopeRef)
    (imports : Identifier → Option (MetaId × ScopeRef)) : ScopeGraph where
  declarations := g.declarations
  scopes := g.scopes.modify scope fun s => { s with imports := imports }
  named := g.named
  older := by
    intro i s p hs hp
    rw [List.getElem?_modify] at hs
    obtain ⟨t, ht, rfl⟩ := Option.map_eq_some_iff.mp hs
    refine g.older i t p ht ?_
    split_ifs at hp <;> exact hp
  parentModules := by
    intro s hs m p hm hp
    obtain ⟨i, hi, rfl⟩ := List.getElem_of_mem hs
    have htype := @modify_imports_scopeType g.scopes scope i fun _ => imports
    rw [List.getElem?_eq_getElem hi, Option.map_some, hm] at htype
    obtain ⟨s', hs', hm'⟩ := Option.map_eq_some_iff.mp htype.symm
    obtain ⟨t, m', d, ht, htm, hd⟩ := g.parentModules s' (List.mem_of_getElem? hs') m p hm' hp
    have htype' := @modify_imports_scopeType g.scopes scope p fun _ => imports
    rw [ht, Option.map_some, htm] at htype'
    obtain ⟨u, hu, hum⟩ := Option.map_eq_some_iff.mp htype'
    exact ⟨u, m', d, hu, hum, hd⟩

/-- `insert_import`; the error is the id of the import that is there. -/
def ScopeGraph.insertImport (g : ScopeGraph) (scope : ScopeRef) (id : MetaId)
    (name : ResolvedName) : Except MetaId ScopeGraph :=
  match g.importsOf scope name.ident with
  | some (old, _) => .error old
  | none => .ok (g.withImports scope
      (Function.update (g.importsOf scope) name.ident (some (id, name.scope))))

/-! ### Scopes and declarations -/

theorem getElem?_concat_cases {α : Type} {l : List α} {a b : α} {i : ℕ}
    (h : (l ++ [a])[i]? = some b) : l[i]? = some b ∨ i = l.length ∧ a = b := by
  rcases Nat.lt_trichotomy i l.length with hi | hi | hi
  · rw [List.getElem?_append_left hi] at h
    exact .inl h
  · rw [hi, List.getElem?_concat_length] at h
    exact .inr ⟨hi, Option.some.inj h⟩
  · rw [List.getElem?_eq_none (by simp; omega)] at h
    cases h

/-- Whether a scope is that of a declared module. -/
def ScopeGraph.isModule (g : ScopeGraph) (p : ScopeRef) : Bool :=
  match g.scopes[p]? with
  | some s =>
    match s.scopeType with
    | .module m => (g.declarations m.name).any fun d => d.scope.isSome
    | .other => false
  | none => false

theorem ScopeGraph.isModule_spec {g : ScopeGraph} {p : ScopeRef} (h : g.isModule p = true) :
    ∃ s m d, g.scopes[p]? = some s ∧ s.scopeType = .module m ∧
      g.declarations m.name = some d ∧ d.scope.isSome := by
  unfold isModule at h
  cases hs : g.scopes[p]? with
  | none => simp [hs] at h
  | some s =>
    cases hm : s.scopeType with
    | other => simp [hs, hm] at h
    | module m =>
      simp only [hs, hm] at h
      obtain ⟨d, hd, hscope⟩ := (Option.any_eq_true _ _).mp h
      exact ⟨s, m, d, rfl, hm, hd, hscope⟩

/-- What `wrap` relies on: the parent is there, and so is the module around a module. -/
def ScopeGraph.canWrap (g : ScopeGraph) (parent : ScopeRef) (scopeType : ScopeType) : Bool :=
  parent < g.scopes.length &&
    match scopeType with
    | .module m => m.parentModule.all g.isModule
    | .other => true

/-- `wrap`: a scope over `parent`, which gets the number `scopes.length`. -/
def ScopeGraph.wrap (g : ScopeGraph) (parent : ScopeRef) (scopeType : ScopeType)
    (h : g.canWrap parent scopeType = true) : ScopeGraph where
  declarations := g.declarations
  scopes := g.scopes ++ [⟨scopeType, some parent, fun _ => none⟩]
  named := g.named
  older := by
    intro i s p hs hp
    rcases getElem?_concat_cases hs with hs | ⟨rfl, rfl⟩
    · exact g.older i s p hs hp
    · obtain rfl := Option.some.inj hp
      exact of_decide_eq_true (Bool.and_eq_true_iff.mp h).1
  parentModules := by
    have hkeep : ∀ (p : ℕ) s', g.scopes[p]? = some s' →
        (g.scopes ++ [⟨scopeType, some parent, fun _ => none⟩])[p]? = some s' := by
      intro p s' h
      rw [List.getElem?_append_left (List.getElem?_eq_some_iff.mp h).1]
      exact h
    intro s hs m p hm hp
    have hparent : ∃ s' m' d, g.scopes[p]? = some s' ∧ s'.scopeType = .module m' ∧
        g.declarations m'.name = some d ∧ d.scope.isSome := by
      rcases List.mem_append.mp hs with hs | hs
      · exact g.parentModules s hs m p hm hp
      · obtain rfl := List.mem_singleton.mp hs
        subst hm
        have hall := (Bool.and_eq_true_iff.mp h).2
        simp only [hp, Option.all_some] at hall
        exact isModule_spec hall
    obtain ⟨s', m', d, hs', hrest⟩ := hparent
    exact ⟨s', m', d, hkeep p s' hs', hrest⟩

/-- The graph with a declaration entered; one that had a scope keeps one. -/
def ScopeGraph.enter (g : ScopeGraph) (d : Declaration)
    (h : ∀ old, g.declarations d.name = some old → old.scope.isSome → d.scope.isSome) :
    ScopeGraph where
  declarations := Function.update g.declarations d.name (some d)
  scopes := g.scopes
  named := by
    intro n d' hd'
    by_cases hn : n = d.name
    · subst hn
      rw [Function.update_self] at hd'
      obtain rfl := Option.some.inj hd'
      rfl
    · rw [Function.update_of_ne hn] at hd'
      exact g.named n d' hd'
  older := g.older
  parentModules := by
    intro s hs m p hm hp
    obtain ⟨s', m', d', hs', hm', hd', hsome⟩ := g.parentModules s hs m p hm hp
    by_cases hn : m'.name = d.name
    · refine ⟨s', m', d, hs', hm', ?_, h d' (hn ▸ hd') hsome⟩
      rw [hn, Function.update_self]
    · refine ⟨s', m', d', hs', hm', ?_, hsome⟩
      rw [Function.update_of_ne hn]
      exact hd'

theorem ScopeGraph.enter_self (g : ScopeGraph) (d : Declaration)
    (h : ∀ old, g.declarations d.name = some old → old.scope.isSome → d.scope.isSome) :
    (g.enter d h).declarations d.name = some d :=
  Function.update_self ..

theorem ScopeGraph.enter_ne (g : ScopeGraph) {d : Declaration}
    (h : ∀ old, g.declarations d.name = some old → old.scope.isSome → d.scope.isSome)
    {n : ResolvedName} (hn : n ≠ d.name) : (g.enter d h).declarations n = g.declarations n :=
  Function.update_of_ne hn ..

theorem ScopeGraph.enter_cases {g : ScopeGraph} {d d' : Declaration}
    {h : ∀ old, g.declarations d.name = some old → old.scope.isSome → d.scope.isSome}
    {n : ResolvedName} (hd' : (g.enter d h).declarations n = some d') :
    n = d.name ∧ d = d' ∨ n ≠ d.name ∧ g.declarations n = some d' := by
  by_cases hn : n = d.name
  · rw [hn, g.enter_self d h] at hd'
    exact .inl ⟨hn, Option.some.inj hd'⟩
  · rw [g.enter_ne h hn] at hd'
    exact .inr ⟨hn, hd'⟩

end Roto.TypeChecker
