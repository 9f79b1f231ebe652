import RotoCompiler.Lib.Settle
import RotoCompiler.TypeChecker.Imports

/-!
# The order of imports

The loop over the imports of a scope is the retrying of jobs: an import depends on what the
scope imports under its first identifier, and on nothing else that other imports change. The
outcome depends on the order when that identifier is also found in an outer scope.
-/

namespace Roto.TypeChecker
open Settle

/-- The imports of a scope. -/
abbrev ImportEnv := Env Identifier (MetaId × ScopeRef)

variable {g : ScopeGraph} {scope : ScopeRef}

/-! ### Graphs with other imports -/

theorem ScopeGraph.eq_of {g g' : ScopeGraph} (hdecl : g.declarations = g'.declarations)
    (hscopes : g.scopes = g'.scopes) : g = g' := by
  cases g
  cases g'
  simp only at hdecl hscopes
  subst hdecl
  subst hscopes
  rfl

theorem withImports_withImports (g : ScopeGraph) (scope : ScopeRef) (E E' : ImportEnv) :
    (g.withImports scope E).withImports scope E' = g.withImports scope E' :=
  ScopeGraph.eq_of rfl (List.modify_modify_eq ..)

theorem importsOf_withImports (hs : scope < g.scopes.length) (E : ImportEnv) :
    (g.withImports scope E).importsOf scope = E := by
  unfold ScopeGraph.importsOf ScopeGraph.withImports
  rw [List.getElem?_modify_eq, List.getElem?_eq_getElem hs]
  rfl

theorem withImports_importsOf (g : ScopeGraph) (scope : ScopeRef) :
    g.withImports scope (g.importsOf scope) = g := by
  refine ScopeGraph.eq_of rfl (List.ext_getElem? fun i => ?_)
  unfold ScopeGraph.withImports ScopeGraph.importsOf
  rw [List.getElem?_modify]
  by_cases h : scope = i
  · subst h
    cases g.scopes[scope]? with
    | none => rfl
    | some s => simp
  · simp [h]

theorem scope_withImports (E : ImportEnv) (s : ScopeRef) :
    (g.withImports scope E).scopes[s]? =
      (g.scopes[s]?).map fun t => if scope = s then { t with imports := E } else t := by
  unfold ScopeGraph.withImports
  rw [List.getElem?_modify]
  by_cases h : scope = s <;> simp [h]

theorem parentModule_withImports (E : ImportEnv) (s : ScopeRef) :
    (g.withImports scope E).parentModule s = g.parentModule s := by
  have hfrom : ∀ fuel s, (g.withImports scope E).parentModuleFrom fuel s =
      g.parentModuleFrom fuel s := by
    intro fuel
    induction fuel with
    | zero => exact fun _ => rfl
    | succ fuel ih =>
      intro s
      have htype : ∀ p : ℕ, ((g.withImports scope E).scopes[p]?).map Scope.scopeType =
          (g.scopes[p]?).map Scope.scopeType := fun p =>
        @modify_imports_scopeType g.scopes scope p fun _ => E
      unfold ScopeGraph.parentModuleFrom
      rw [scope_withImports]
      cases hscope : g.scopes[s]? with
      | none => rfl
      | some t =>
        have hsame : (if scope = s then { t with imports := E } else t).scopeType = t.scopeType ∧
            (if scope = s then { t with imports := E } else t).parent = t.parent := by
          split_ifs <;> exact ⟨rfl, rfl⟩
        simp only [Option.map_some, hsame.1, hsame.2]
        cases t.scopeType with
        | module m =>
          cases hp : m.parentModule with
          | none => simp only [hp]
          | some p =>
            simp only [hp, htype]
            rfl
        | other =>
          cases t.parent with
          | none => rfl
          | some parent => exact ih parent
  exact hfrom (s + 1) s

/-! ### Looking up a name -/

theorem declarations_withImports (E : ImportEnv) :
    (g.withImports scope E).declarations = g.declarations :=
  rfl

theorem resolveName_withImports {E E' : ImportEnv} {i : Identifier} (h : E i = E' i) (s : ScopeRef)
    (recurse : Bool) : (g.withImports scope E).resolveName s i recurse =
      (g.withImports scope E').resolveName s i recurse := by
  have hfrom : ∀ fuel s, (g.withImports scope E).resolveNameFrom fuel s i recurse =
      (g.withImports scope E').resolveNameFrom fuel s i recurse := by
    intro fuel
    induction fuel with
    | zero => exact fun _ => rfl
    | succ fuel ih =>
      intro s
      unfold ScopeGraph.resolveNameFrom
      rw [scope_withImports, scope_withImports, declarations_withImports,
        declarations_withImports]
      cases g.declarations ⟨s, i⟩ with
      | some d => rfl
      | none =>
        cases recurse with
        | false => rfl
        | true =>
          cases g.scopes[s]? with
          | none => rfl
          | some t =>
            by_cases hs : scope = s
            · simp only [Option.map_some, if_pos hs, h]
              cases E' i with
              | some x => rfl
              | none =>
                cases t.parent with
                | none => rfl
                | some parent => exact ih parent
            · simp only [Option.map_some, if_neg hs]
              cases t.imports i with
              | some x => rfl
              | none =>
                cases t.parent with
                | none => rfl
                | some parent => exact ih parent
  exact hfrom (s + 1) s

theorem resolveName_inner (s : ScopeRef) (i : Identifier) :
    g.resolveName s i false = g.declarations ⟨s, i⟩ := by
  unfold ScopeGraph.resolveName ScopeGraph.resolveNameFrom
  cases g.declarations ⟨s, i⟩ <;> rfl

/-- What is found has the name that was looked for. -/
theorem resolveName_ident {s : ScopeRef} {i : Identifier} {recurse : Bool} {d : Declaration}
    (h : g.resolveName s i recurse = some d) : d.name.ident = i := by
  have hfrom : ∀ fuel s, g.resolveNameFrom fuel s i recurse = some d → d.name.ident = i := by
    intro fuel
    induction fuel with
    | zero => exact fun _ h => nomatch h
    | succ fuel ih =>
      intro s h
      unfold ScopeGraph.resolveNameFrom at h
      cases hd : g.declarations ⟨s, i⟩ with
      | some d' =>
        simp only [hd, Option.some.injEq] at h
        rw [← h, g.named _ _ hd]
      | none =>
        simp only [hd] at h
        cases recurse with
        | false => cases h
        | true =>
          simp only [Bool.not_true, Bool.false_eq_true, if_false] at h
          cases hscope : g.scopes[s]? with
          | none => simp [hscope] at h
          | some t =>
            simp only [hscope] at h
            cases hi : t.imports i with
            | some x =>
              simp only [hi] at h
              rw [g.named _ _ h]
            | none =>
              simp only [hi] at h
              cases hp : t.parent with
              | none => simp [hp] at h
              | some parent =>
                simp only [hp] at h
                exact ih parent h
  exact hfrom (s + 1) s h

/-! ### Resolving a path -/

theorem resolveIdent_withImports {E E' : ImportEnv} {ident : Meta Identifier}
    (h : E ident.node = E' ident.node) (s : ScopeRef) (recurse : Bool) :
    resolveIdent (g.withImports scope E) s ident recurse =
      resolveIdent (g.withImports scope E') s ident recurse := by
  unfold resolveIdent
  rw [resolveName_withImports h]

theorem resolveIdent_inner (E E' : ImportEnv) (s : ScopeRef) (ident : Meta Identifier) :
    resolveIdent (g.withImports scope E) s ident false =
      resolveIdent (g.withImports scope E') s ident false := by
  unfold resolveIdent
  rw [resolveName_inner, resolveName_inner]
  rfl

theorem resolveIdent_ident {s : ScopeRef} {ident : Meta Identifier} {recurse : Bool}
    {d : Declaration} (h : resolveIdent g s ident recurse = .ok d) : d.name.ident = ident.node := by
  unfold resolveIdent at h
  split_ifs at h
  cases hres : g.resolveName s ident.node recurse with
  | none => simp [hres] at h
  | some stub =>
    simp only [hres, Except.ok.injEq] at h
    exact h ▸ resolveName_ident hres

theorem resolveRest_inner (E E' : ImportEnv) (s : ScopeRef) (ident : Meta Identifier)
    (rest : List (Meta Identifier)) :
    resolveRest (g.withImports scope E) s ident false rest =
      resolveRest (g.withImports scope E') s ident false rest := by
  induction rest generalizing s ident with
  | nil => rw [resolveRest, resolveRest, resolveIdent_inner E E']
  | cons i rest ih =>
    rw [resolveRest, resolveRest, resolveIdent_inner E E']
    cases resolveIdent (g.withImports scope E') s ident false with
    | error e => rfl
    | ok stub =>
      cases hs : stub.scope with
      | none => simp only [hs]
      | some t =>
        simp only [hs]
        exact ih t i

theorem resolveRest_withImports {E E' : ImportEnv} {ident : Meta Identifier}
    (h : E ident.node = E' ident.node) (s : ScopeRef) (recurse : Bool)
    (rest : List (Meta Identifier)) :
    resolveRest (g.withImports scope E) s ident recurse rest =
      resolveRest (g.withImports scope E') s ident recurse rest := by
  cases rest with
  | nil => rw [resolveRest, resolveRest, resolveIdent_withImports h]
  | cons i rest =>
    rw [resolveRest, resolveRest, resolveIdent_withImports h]
    cases resolveIdent (g.withImports scope E') s ident recurse with
    | error e => rfl
    | ok stub =>
      cases hs : stub.scope with
      | none => simp only [hs]
      | some t =>
        simp only [hs]
        exact resolveRest_inner E E' t i rest

/-- A path that is resolved to its end gives what has the name of its last identifier. -/
theorem resolveRest_end {s : ScopeRef} {ident i : Meta Identifier} {recurse : Bool}
    {rest : List (Meta Identifier)} {d : Declaration}
    (h : resolveRest g s ident recurse rest = .ok (i, d, [])) :
    i = (ident :: rest).getLast (List.cons_ne_nil _ _) ∧ d.name.ident = i.node := by
  induction rest generalizing s ident recurse with
  | nil =>
    rw [resolveRest] at h
    cases hi : resolveIdent g s ident recurse with
    | error e => simp [hi] at h
    | ok stub =>
      simp only [hi, Except.ok.injEq, Prod.mk.injEq] at h
      obtain ⟨rfl, rfl, -⟩ := h
      exact ⟨rfl, resolveIdent_ident hi⟩
  | cons j rest ih =>
    rw [resolveRest] at h
    cases hi : resolveIdent g s ident recurse with
    | error e => simp [hi] at h
    | ok stub =>
      simp only [hi] at h
      cases hs : stub.scope with
      | none => simp [hs] at h
      | some t =>
        simp only [hs] at h
        exact ih h

/-- The first identifier that is not `super`, if there is one. -/
def leading : Meta Identifier → List (Meta Identifier) → Identifier
  | ident, [] => ident.node
  | ident, i :: rest => if ident.node = "super" then leading i rest else ident.node

theorem resolveSuper_withImports (E : ImportEnv) (s : ScopeRef) (ident : Meta Identifier) :
    resolveSuper (g.withImports scope E) s ident = resolveSuper g s ident := by
  unfold resolveSuper
  rw [parentModule_withImports]

theorem resolveModulePart_withImports {E E' : ImportEnv} {ident : Meta Identifier}
    {rest : List (Meta Identifier)} (h : E (leading ident rest) = E' (leading ident rest))
    (s : ScopeRef) :
    resolveModulePartOfPath (g.withImports scope E) s ident rest =
      resolveModulePartOfPath (g.withImports scope E') s ident rest := by
  induction rest generalizing s ident with
  | nil =>
    rw [resolveModulePartOfPath, resolveModulePartOfPath, resolveSuper_withImports,
      resolveSuper_withImports, resolveRest_withImports h]
  | cons i rest ih =>
    rw [resolveModulePartOfPath, resolveModulePartOfPath, resolveSuper_withImports,
      resolveSuper_withImports]
    rw [leading] at h
    split_ifs at h ⊢ with hsuper
    · cases resolveSuper g s ident with
      | error e => rfl
      | ok x => exact ih h x.2
    · exact resolveRest_withImports h s true (i :: rest)

/-- Whatever the scope imports, a path ends at the same identifier and at the same name. -/
theorem resolveModulePart_end {E E' : ImportEnv} {s : ScopeRef} {ident i i' : Meta Identifier}
    {rest : List (Meta Identifier)} {d d' : Declaration}
    (h : resolveModulePartOfPath (g.withImports scope E) s ident rest = .ok (i, d, []))
    (h' : resolveModulePartOfPath (g.withImports scope E') s ident rest = .ok (i', d', [])) :
    i = i' ∧ d.name.ident = d'.name.ident := by
  have hrest : ∀ {ident : Meta Identifier} {rest : List (Meta Identifier)} {s : ScopeRef},
      resolveRest (g.withImports scope E) s ident true rest = .ok (i, d, []) →
      resolveRest (g.withImports scope E') s ident true rest = .ok (i', d', []) →
      i = i' ∧ d.name.ident = d'.name.ident := by
    intro ident rest s h h'
    obtain ⟨hi, hd⟩ := resolveRest_end h
    obtain ⟨hi', hd'⟩ := resolveRest_end h'
    have heq : i = i' := hi.trans hi'.symm
    exact ⟨heq, by rw [hd, hd', heq]⟩
  induction rest generalizing s ident with
  | nil =>
    rw [resolveModulePartOfPath, resolveSuper_withImports] at h h'
    split_ifs at h h'
    · rw [h] at h'
      simp only [Except.ok.injEq, Prod.mk.injEq] at h'
      exact ⟨h'.1, by rw [h'.2.1]⟩
    · exact hrest h h'
  | cons j rest ih =>
    rw [resolveModulePartOfPath, resolveSuper_withImports] at h h'
    split_ifs at h h'
    · cases hs : resolveSuper g s ident with
      | error e => simp [hs] at h
      | ok x =>
        simp only [hs] at h h'
        exact ih h h'
    · exact hrest h h'

/-! ### Imports as jobs -/

/-- What a path imports, and the id of the identifier that it ends at. -/
def importTarget (g : ScopeGraph) (scope : ScopeRef) (E : ImportEnv) (path : ImportPath) :
    Option (Identifier × (MetaId × ScopeRef)) :=
  match resolveModulePartOfPath (g.withImports scope E) scope path.first path.rest with
  | .ok (ident, d, []) => some (d.name.ident, (ident.id, d.name.scope))
  | _ => none

theorem importTarget_some {E : ImportEnv} {path : ImportPath} {x : Identifier × (MetaId × ScopeRef)}
    (h : importTarget g scope E path = some x) :
    ∃ ident d, resolveModulePartOfPath (g.withImports scope E) scope path.first path.rest =
      .ok (ident, d, []) ∧ x = (d.name.ident, (ident.id, d.name.scope)) := by
  unfold importTarget at h
  split at h
  · next ident d hres => exact ⟨ident, d, hres, (Option.some.inj h).symm⟩
  · cases h

theorem importTarget_local (g : ScopeGraph) (scope : ScopeRef) : Local (importTarget g scope) := by
  intro path
  refine ⟨leading path.first path.rest, fun E E' h => ?_⟩
  unfold importTarget
  rw [resolveModulePart_withImports h]

theorem importTarget_fixed (g : ScopeGraph) (scope : ScopeRef) :
    Fixed (importTarget g scope) Prod.snd where
  key_eq path E E' x x' h h' := by
    obtain ⟨i, d, hres, rfl⟩ := importTarget_some h
    obtain ⟨i', d', hres', rfl⟩ := importTarget_some h'
    exact (resolveModulePart_end hres hres').2
  view_inj path E E' x x' h h' hview := by
    obtain ⟨i, d, hres, rfl⟩ := importTarget_some h
    obtain ⟨i', d', hres', rfl⟩ := importTarget_some h'
    have hid := congrArg Meta.id (resolveModulePart_end hres hres').1
    exact Prod.ext hid hview

/-- An import is an attempt. -/
theorem importPath_attempt (hs : scope < g.scopes.length) (E : ImportEnv) (path : ImportPath) :
    (∃ E', attempt (importTarget g scope) E path = some E' ∧
        importPath (g.withImports scope E) scope path = .ok (g.withImports scope E')) ∨
      attempt (importTarget g scope) E path = none ∧
        ∃ e, importPath (g.withImports scope E) scope path = .error e := by
  unfold importPath attempt importTarget
  cases hres : resolveModulePartOfPath (g.withImports scope E) scope path.first path.rest with
  | error e => exact .inr ⟨rfl, e, rfl⟩
  | ok x =>
    obtain ⟨ident, d, left⟩ := x
    cases left with
    | cons i left => exact .inr ⟨rfl, _, rfl⟩
    | nil =>
      unfold ScopeGraph.insertImport
      rw [importsOf_withImports hs]
      cases hE : E d.name.ident with
      | some old => exact .inr ⟨by simp [hE], errorDeclaredTwice ident old.1, by simp only [hE]⟩
      | none =>
        refine .inl ⟨_, by simp only [hE]; rfl, ?_⟩
        simp only [hE, withImports_withImports]

theorem retain_eq_round (hs : scope < g.scopes.length) (E : ImportEnv) (paths : List ImportPath) :
    retain scope (g.withImports scope E) paths =
      ((sweep (importTarget g scope) E paths).1,
        g.withImports scope (sweep (importTarget g scope) E paths).2) := by
  induction paths generalizing E with
  | nil => rfl
  | cons p paths ih =>
    rcases importPath_attempt hs E p with ⟨E', hattempt, himport⟩ | ⟨hattempt, e, himport⟩
    · simp only [retain, sweep, hattempt, himport, ih]
    · simp only [retain, sweep, hattempt, himport, ih]

/-- The loop settles the imports, and fails where they do not settle. -/
theorem importsLoop_eq_settle (hs : scope < g.scopes.length) {fuel : ℕ} (E : ImportEnv)
    {paths : List ImportPath} (hfuel : paths.length < fuel) :
    match settle (importTarget g scope) fuel E paths with
    | some E' => importsLoop scope fuel (g.withImports scope E) paths =
        some (.ok (g.withImports scope E'))
    | none => ∃ e, importsLoop scope fuel (g.withImports scope E) paths = some (.error e) := by
  induction fuel generalizing E paths with
  | zero => omega
  | succ fuel ih =>
    have hle := sweep_length_le (importTarget g scope) E paths
    simp only [settle, importsLoop, retain_eq_round hs]
    by_cases hnil : (sweep (importTarget g scope) E paths).1 = []
    · simp only [if_pos hnil]
    by_cases hlen : (sweep (importTarget g scope) E paths).1.length = paths.length
    · simp only [if_neg hnil, if_pos hlen]
      obtain ⟨henv, hmem⟩ := sweep_stuck_env hlen
      cases hrest : (sweep (importTarget g scope) E paths).1 with
      | nil => exact absurd hrest hnil
      | cons p rest =>
        have hp : p ∈ paths := hmem p (hrest ▸ List.mem_cons_self ..)
        rcases importPath_attempt hs E p with ⟨E', hattempt, -⟩ | ⟨-, e, himport⟩
        · rw [sweep_stuck hlen p hp] at hattempt
          cases hattempt
        · exact ⟨e, by rw [henv, List.foldlM_cons, himport]; rfl⟩
    · simp only [if_neg hnil, if_neg hlen]
      exact ih _ (by omega)

/-! ### All orders -/

/-- Both fail, or both succeed and leave the scope with the same imports. -/
def SameImports (scope : ScopeRef) :
    Option (Except TypeError ScopeGraph) → Option (Except TypeError ScopeGraph) → Prop
  | some (.error _), some (.error _) => True
  | some (.ok g), some (.ok g') =>
    ∀ i, (g.importsOf scope i).map Prod.snd = (g'.importsOf scope i).map Prod.snd
  | _, _ => False

theorem sameImports_iff_seen (hs : scope < g.scopes.length) {fuel fuel' : ℕ} (E : ImportEnv)
    {paths paths' : List ImportPath} (h : paths.length < fuel) (h' : paths'.length < fuel') :
    SameImports scope (importsLoop scope fuel (g.withImports scope E) paths)
        (importsLoop scope fuel' (g.withImports scope E) paths') ↔
      seen Prod.snd (settle (importTarget g scope) fuel E paths) =
        seen Prod.snd (settle (importTarget g scope) fuel' E paths') := by
  have hloop := importsLoop_eq_settle hs E h
  have hloop' := importsLoop_eq_settle hs E h'
  cases hset : settle (importTarget g scope) fuel E paths with
  | none =>
    simp only [hset] at hloop
    obtain ⟨e, he⟩ := hloop
    cases hset' : settle (importTarget g scope) fuel' E paths' with
    | none =>
      simp only [hset'] at hloop'
      obtain ⟨e', he'⟩ := hloop'
      simp [he, he', SameImports, seen]
    | some E' =>
      simp only [hset'] at hloop'
      simp [he, hloop', SameImports, seen]
  | some E₁ =>
    simp only [hset] at hloop
    cases hset' : settle (importTarget g scope) fuel' E paths' with
    | none =>
      simp only [hset'] at hloop'
      obtain ⟨e', he'⟩ := hloop'
      simp [hloop, he', SameImports, seen]
    | some E' =>
      simp only [hset'] at hloop'
      simp only [hloop, hloop', SameImports, seen, importsOf_withImports hs, Option.map_some,
        Option.some.injEq]
      exact funext_iff.symm

/-- The outcome is the same for every order of the paths if and only if they do not disturb
each other: on the way of an order in which all of them can be imported, an import does not
change what another one that is possible there resolves to. -/
theorem imports_perm_iff (g : ScopeGraph) (scope : ScopeRef) (hs : scope < g.scopes.length)
    (paths : List ImportPath) :
    (∀ paths' : List ImportPath, paths'.Perm paths →
        SameImports scope (imports g scope paths') (imports g scope paths)) ↔
      Undisturbed (importTarget g scope) (g.importsOf scope) paths := by
  rw [← settle_perm_iff (importTarget_local g scope) (importTarget_fixed g scope)]
  refine forall₂_congr fun paths' _ => ?_
  have hiff := sameImports_iff_seen hs (g.importsOf scope) (Nat.lt_succ_self paths'.length)
    (Nat.lt_succ_self paths.length)
  rw [withImports_importsOf] at hiff
  exact hiff

/-! ### `import a.Option; import Option.Some;` -/

/-- The module `pkg` with a module `a` in it; both the root and `a` have an `Option`. -/
def twoOptions : List Declaration :=
  [⟨⟨0, "pkg"⟩, .module, 0, some 1⟩, ⟨⟨0, "Option"⟩, .type, 0, some 2⟩,
    ⟨⟨2, "Some"⟩, .enum, 0, none⟩, ⟨⟨1, "a"⟩, .module, 0, some 3⟩,
    ⟨⟨3, "Option"⟩, .type, 0, some 4⟩, ⟨⟨4, "Some"⟩, .enum, 0, none⟩]

def twoOptionsGraph : ScopeGraph where
  declarations n := twoOptions.find? fun d => d.name = n
  scopes := [⟨.other, none, fun _ => none⟩,
    ⟨.module ⟨⟨0, "pkg"⟩, none⟩, some 0, fun _ => none⟩, ⟨.other, some 0, fun _ => none⟩,
    ⟨.module ⟨⟨1, "a"⟩, some 1⟩, some 0, fun _ => none⟩, ⟨.other, some 3, fun _ => none⟩]
  named n d h := of_decide_eq_true (List.find?_some h :)
  older i s p hs hp := by
    match i, hs with
    | 0, hs => cases hs; cases hp
    | 1, hs => cases hs; cases hp; decide
    | 2, hs => cases hs; cases hp; decide
    | 3, hs => cases hs; cases hp; decide
    | 4, hs => cases hs; cases hp; decide
  parentModules := by
    intro s hs m p hm hp
    simp only [List.mem_cons, List.not_mem_nil, or_false] at hs
    rcases hs with rfl | rfl | rfl | rfl | rfl
    · cases hm
    · cases hm
      cases hp
    · cases hm
    · cases hm
      cases hp
      exact ⟨_, ⟨⟨0, "pkg"⟩, none⟩, _, rfl, rfl, rfl, rfl⟩
    · cases hm

def ofModule : ImportPath := ⟨⟨"a", 1⟩, [⟨"Option", 2⟩]⟩

def ofOption : ImportPath := ⟨⟨"Option", 3⟩, [⟨"Some", 4⟩]⟩

/-- `import a;` -/
def moduleItself : ImportPath := ⟨⟨"a", 5⟩, []⟩

/-- Both paths start at what `pkg` declares. -/
theorem ofModule_any_order :
    SameImports 1 (imports twoOptionsGraph 1 [moduleItself, ofModule])
      (imports twoOptionsGraph 1 [ofModule, moduleItself]) := by
  have hconst : ∀ p ∈ [ofModule, moduleItself], ∀ E E',
      importTarget twoOptionsGraph 1 E p = importTarget twoOptionsGraph 1 E' p := by
    intro p hp E E'
    rcases List.mem_pair.mp hp with rfl | rfl
    · rfl
    · rfl
  refine (imports_perm_iff twoOptionsGraph 1 (by decide) [ofModule, moduleItself]).mpr ?_ _
    (.swap ..)
  intro before p q rest _ _ _ _ _ hperm _ _ _ htarget _
  rw [← htarget]
  exact hconst p (hperm.mem_iff.mp (by simp)) _ _

/-- In one order `Some` is a variant of the imported `Option`, in the other one of the outer
`Option`. -/
theorem ofOption_depends_on_order :
    [ofModule, ofOption].Perm [ofOption, ofModule] ∧
      ¬ SameImports 1 (imports twoOptionsGraph 1 [ofModule, ofOption])
        (imports twoOptionsGraph 1 [ofOption, ofModule]) := by
  refine ⟨.swap .., fun h => ?_⟩
  have hsome := (show ∀ i, _ = _ from h) "Some"
  have hscope : some 4 = some 2 := hsome
  cases hscope

end Roto.TypeChecker
