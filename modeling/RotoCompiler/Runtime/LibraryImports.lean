import RotoCompiler.Runtime.ScopeOwners

/-!
# Imports of libraries (runtime/mod.rs, typechecker/scope.rs)

Every `use` of a library is entered in the root, whatever module it stands in, and each part of
its path is looked up in the root too. A later lookup unwraps what has been imported, whether it
is declared or not.
-/

namespace Roto.TypeChecker.ScopeGraph

variable (g : ScopeGraph)

/-- The loop of `resolve_name`, with `none` for a failed `unwrap`. -/
def lookupFrom : ℕ → ScopeRef → Identifier → Bool → Option (Option Declaration)
  | 0, _, _, _ => some none
  | fuel + 1, scope, ident, recurse =>
    match g.declarations ⟨scope, ident⟩ with
    | some d => some (some d)
    | none =>
      if !recurse then some none
      else
        match g.scopes[scope]? with
        | none => some none
        | some s =>
          match s.imports ident with
          | some (_, importScope) => (g.declarations ⟨importScope, ident⟩).map some
          | none =>
            match s.parent with
            | none => some none
            | some parent => lookupFrom fuel parent ident recurse

/-- `resolve_name`. -/
def lookup (scope : ScopeRef) (ident : Identifier) (recurse : Bool) : Option (Option Declaration) :=
  g.lookupFrom (scope + 1) scope ident recurse

theorem lookupFrom_join (fuel : ℕ) (scope : ScopeRef) (ident : Identifier) (recurse : Bool) :
    (g.lookupFrom fuel scope ident recurse).join = g.resolveNameFrom fuel scope ident recurse := by
  induction fuel generalizing scope with
  | zero => rfl
  | succ fuel ih =>
    unfold lookupFrom resolveNameFrom
    cases g.declarations ⟨scope, ident⟩ with
    | some d => rfl
    | none =>
      cases recurse with
      | false => rfl
      | true =>
        rcases hs : g.scopes[scope]? with _ | s
        · rfl
        · rcases hi : s.imports ident with _ | ⟨id, importScope⟩
          · cases hp : s.parent with
            | none => simp [hi, hp]
            | some parent => simpa [hi, hp] using ih parent
          · cases hd : g.declarations ⟨importScope, ident⟩ <;> simp [hi, hd]

/-- Where no `unwrap` fails, this is the lookup of the type checker. -/
theorem lookup_join (scope : ScopeRef) (ident : Identifier) (recurse : Bool) :
    (g.lookup scope ident recurse).join = g.resolveName scope ident recurse :=
  g.lookupFrom_join (scope + 1) scope ident recurse

/-- No lookup panics. -/
def LookupsSafe : Prop := ∀ scope ident recurse, (g.lookup scope ident recurse).isSome

end Roto.TypeChecker.ScopeGraph

namespace Roto.Runtime
open TypeChecker

variable {g g' : ScopeGraph} {ids : RustTypes} {rt rt' : Rt}

/-! ### Lookups -/

theorem lookup_declared {s : ScopeRef} {x : Identifier} {d : Declaration} (recurse : Bool)
    (hd : g.declarations ⟨s, x⟩ = some d) : g.lookup s x recurse = some (some d) := by
  unfold ScopeGraph.lookup ScopeGraph.lookupFrom
  simp only [hd]

theorem importsOf_scope {s : ScopeRef} {x : Identifier} {e : MetaId × ScopeRef}
    (h : g.importsOf s x = some e) : ∃ sc, g.scopes[s]? = some sc ∧ sc.imports x = some e := by
  unfold ScopeGraph.importsOf at h
  cases hs : g.scopes[s]? with
  | none => simp [hs] at h
  | some sc => exact ⟨sc, rfl, by simpa [hs] using h⟩

theorem lookup_imported {s t : ScopeRef} {x : Identifier} {id : MetaId}
    (hnone : g.declarations ⟨s, x⟩ = none) (h : g.importsOf s x = some (id, t)) :
    g.lookup s x true = (g.declarations ⟨t, x⟩).map some := by
  obtain ⟨sc, hs, hx⟩ := importsOf_scope h
  unfold ScopeGraph.lookup ScopeGraph.lookupFrom
  simp [hnone, hs, hx]

/-- Lookups are safe if every import that can be reached is of something declared. -/
theorem lookupsSafe_iff : g.LookupsSafe ↔ ∀ s x id t, g.importsOf s x = some (id, t) →
    (g.declarations ⟨s, x⟩).isSome ∨ (g.declarations ⟨t, x⟩).isSome := by
  constructor
  · intro h s x id t himport
    cases hd : g.declarations ⟨s, x⟩ with
    | some d => exact .inl rfl
    | none =>
      have hsome := h s x true
      rw [lookup_imported hd himport, Option.isSome_map] at hsome
      exact .inr hsome
  · intro h scope ident recurse
    have hfrom : ∀ fuel s, (g.lookupFrom fuel s ident recurse).isSome := by
      intro fuel
      induction fuel with
      | zero => exact fun _ => rfl
      | succ fuel ih =>
        intro s
        unfold ScopeGraph.lookupFrom
        cases hd : g.declarations ⟨s, ident⟩ with
        | some d => rfl
        | none =>
          cases recurse with
          | false => rfl
          | true =>
            cases hs : g.scopes[s]? with
            | none => rfl
            | some sc =>
              cases hi : sc.imports ident with
              | some e =>
                have himport : g.importsOf s ident = some (e.1, e.2) := by
                  simp [ScopeGraph.importsOf, hs, hi]
                have hsome := h s ident e.1 e.2 himport
                rw [hd] at hsome
                simpa [hi] using hsome
              | none =>
                cases hp : sc.parent with
                | none => simp [hi, hp]
                | some p => simpa [hi, hp] using ih p
    exact hfrom _ scope

/-- A lookup finds a declaration of the scope or of one around it, or of a scope that belongs to
the root. -/
theorem lookup_found (hg : Owned g) {s : ScopeRef} {x : Identifier} {d : Declaration}
    (h : g.lookup s x true = some (some d)) : d.name.scope ≤ s ∨
      ∃ m e, g.declarations ⟨ScopeRef.GLOBAL, m⟩ = some e ∧ e.scope = some d.name.scope := by
  have hresolve : g.resolveName s x true = some d := by
    rw [← g.lookup_join s x true, h]
    rfl
  have hfrom : ∀ fuel s', s' ≤ s → g.resolveNameFrom fuel s' x true = some d →
      d.name.scope ≤ s ∨
        ∃ m e, g.declarations ⟨ScopeRef.GLOBAL, m⟩ = some e ∧ e.scope = some d.name.scope := by
    intro fuel
    induction fuel with
    | zero => intro s' _ hrun; cases hrun
    | succ fuel ih =>
      intro s' hle hrun
      unfold ScopeGraph.resolveNameFrom at hrun
      cases hd : g.declarations ⟨s', x⟩ with
      | some e =>
        simp only [hd, Option.some.injEq] at hrun
        obtain rfl := hrun
        rw [g.named _ _ hd]
        exact .inl hle
      | none =>
        cases hs : g.scopes[s']? with
        | none => simp [hd, hs] at hrun
        | some sc =>
          cases hi : sc.imports x with
          | some e =>
            simp only [hd, hs, hi, Bool.not_true, Bool.false_eq_true, if_false] at hrun
            have himport : g.importsOf s' x = some (e.1, e.2) := by
              simp [ScopeGraph.importsOf, hs, hi]
            rw [g.named _ _ hrun]
            rcases (hg.imports _ _ _ _ himport).2 with ht | ⟨m, e', he', ht⟩
            · exact .inl (ht ▸ Nat.zero_le s)
            · exact .inr ⟨m, e', he', ht⟩
          | none =>
            cases hp : sc.parent with
            | none => simp [hd, hs, hi, hp] at hrun
            | some p =>
              simp only [hd, hs, hi, hp, Bool.not_true, Bool.false_eq_true, if_false] at hrun
              have hlt := g.older s' sc p hs hp
              exact ih p ((Nat.le_of_lt hlt).trans hle) hrun
  exact hfrom _ s le_rfl hresolve

/-! ### Paths as they are written -/

/-- The scope of a path of modules and types, each inside the one before. -/
def Rt.walk (rt : Rt) : ScopeRef → List Identifier → Option ScopeRef
  | s, [] => some s
  | s, m :: ms => (rt.scopeOf s m).bind fun t => rt.walk t ms

theorem walk_snoc (s : ScopeRef) (ms : List Identifier) (m : Identifier) :
    rt.walk s (ms ++ [m]) = (rt.walk s ms).bind fun t => rt.scopeOf t m := by
  induction ms generalizing s with
  | nil =>
    show (rt.scopeOf s m).bind some = rt.scopeOf s m
    cases rt.scopeOf s m <;> rfl
  | cons a ms ih =>
    show (rt.scopeOf s a).bind _ = ((rt.scopeOf s a).bind _).bind _
    cases rt.scopeOf s a with
    | none => rfl
    | some t => exact ih t

/-- Inner scopes are newer. -/
theorem walk_newer (h : Owned rt.graph) {s t : ScopeRef} {ms : List Identifier}
    (hw : rt.walk s ms = some t) : s ≤ t ∧ (ms ≠ [] → s < t) := by
  induction ms generalizing s with
  | nil =>
    obtain rfl := Option.some.inj hw
    exact ⟨le_rfl, fun hne => absurd rfl hne⟩
  | cons m ms ih =>
    obtain ⟨u, hu, hw⟩ := Option.bind_eq_some_iff.mp hw
    have hlt := (h.scopeOf hu).1
    have hle := (ih hw).1
    exact ⟨(Nat.le_of_lt hlt).trans hle, fun _ => Nat.lt_of_lt_of_le hlt hle⟩

/-- A path of a `use`, and the modules that it stands in. -/
structure PlacedUse where
  inside : List Identifier
  path : List Identifier
  deriving DecidableEq, Repr

mutual

/-- The paths of the imports of an item. -/
def usesOf (inside : List Identifier) : Item ids → List PlacedUse
  | .use imports => imports.map fun path => ⟨inside, path⟩
  | .module ident children => uses (inside ++ [ident]) children
  | _ => []

def uses (inside : List Identifier) : List (Item ids) → List PlacedUse
  | [] => []
  | item :: items => usesOf inside item ++ uses inside items

end

/-- Looking up the last identifier of the path where the `use` stands gives what the path says. -/
def PlacedUse.ResolvesAsWritten (u : PlacedUse) (rt : Rt) : Prop :=
  ∃ x s t d, u.path.getLast? = some x ∧ rt.walk ScopeRef.GLOBAL u.inside = some s ∧
    rt.walk s u.path.dropLast = some t ∧ rt.graph.declarations ⟨t, x⟩ = some d ∧
    rt.graph.lookup s x true = some (some d)

/-! ### Paths as they are imported -/

/-- The scope that the import of a path names: the last part but one, looked up in the root. -/
def Rt.target (rt : Rt) (path : List Identifier) : Option ScopeRef :=
  match path.dropLast.getLast? with
  | none => some ScopeRef.GLOBAL
  | some m => rt.scopeOf ScopeRef.GLOBAL m

/-- The paths are imported one after the other: each part of a path is in the root, and no
identifier is imported twice. -/
structure Passes (rt : Rt) (paths : List (List Identifier)) : Prop where
  parts : ∀ p ∈ paths, ∀ m ∈ p.dropLast, (rt.scopeOf ScopeRef.GLOBAL m).isSome
  names : (paths.map List.getLast?).Nodup
  free : ∀ p ∈ paths, ∀ x, p.getLast? = some x → rt.graph.importsOf ScopeRef.GLOBAL x = none

/-- The state after the imports of the paths. -/
structure Imported (rt : Rt) (paths : List (List Identifier)) (rt' : Rt) : Prop where
  declarations : rt'.graph.declarations = rt.graph.declarations
  length : rt'.graph.scopes.length = rt.graph.scopes.length
  other : ∀ s, s ≠ ScopeRef.GLOBAL → rt'.graph.importsOf s = rt.graph.importsOf s
  new : ∀ p ∈ paths, ∀ x, p.getLast? = some x →
    ∃ t, rt.target p = some t ∧ rt'.graph.importsOf ScopeRef.GLOBAL x = some (0, t)
  old : ∀ x, (∀ p ∈ paths, p.getLast? ≠ some x) →
    rt'.graph.importsOf ScopeRef.GLOBAL x = rt.graph.importsOf ScopeRef.GLOBAL x

theorem Imported.nil (rt : Rt) : Imported rt [] rt :=
  ⟨rfl, rfl, fun _ _ => rfl, fun _ h => (nomatch h), fun _ _ => rfl⟩

theorem Imported.scopeOf {paths : List (List Identifier)} (h : Imported rt paths rt')
    (s : ScopeRef) (x : Identifier) : rt'.scopeOf s x = rt.scopeOf s x := by
  rw [Rt.scopeOf, Rt.scopeOf, resolveName_here, resolveName_here, h.declarations]

theorem Imported.target {paths : List (List Identifier)} (h : Imported rt paths rt')
    (p : List Identifier) : rt'.target p = rt.target p := by
  unfold Rt.target
  cases p.dropLast.getLast? with
  | none => rfl
  | some m => exact h.scopeOf _ m

theorem Imported.walk {paths : List (List Identifier)} (h : Imported rt paths rt') (s : ScopeRef)
    (ms : List Identifier) : rt'.walk s ms = rt.walk s ms := by
  induction ms generalizing s with
  | nil => rfl
  | cons m ms ih =>
    show (rt'.scopeOf s m).bind _ = (rt.scopeOf s m).bind _
    rw [h.scopeOf]
    cases rt.scopeOf s m with
    | none => rfl
    | some t => exact ih t

/-- The loop over the parts of a path ends with the last part, or at one that is not in the
root. -/
theorem importScope_run (newScope : ScopeRef) (ms : List Identifier) :
    (∃ t, (match ms.getLast? with
        | none => some newScope
        | some m => rt.scopeOf ScopeRef.GLOBAL m) = some t ∧
      (∀ m ∈ ms, (rt.scopeOf ScopeRef.GLOBAL m).isSome) ∧
      (importScope ScopeRef.GLOBAL newScope ms).run rt = some (.ok t, rt, [])) ∨
    ∃ m e, m ∈ ms ∧ rt.scopeOf ScopeRef.GLOBAL m = none ∧
      (importScope ScopeRef.GLOBAL newScope ms).run rt = some (.error e, rt, []) := by
  induction ms generalizing newScope with
  | nil => exact .inl ⟨newScope, rfl, fun _ h => (nomatch h), rfl⟩
  | cons m ms ih =>
    have hrun : (importScope ScopeRef.GLOBAL newScope (m :: ms)).run rt =
        (match rt.scopeOf ScopeRef.GLOBAL m with
          | none => Traced.fail s!"Could not get scope of {m}"
          | some newScope => importScope ScopeRef.GLOBAL newScope ms : Reg ScopeRef).run rt :=
      Traced.get_bind_run _ rt
    cases hm : rt.scopeOf ScopeRef.GLOBAL m with
    | none =>
      rw [hm] at hrun
      exact .inr ⟨m, _, List.mem_cons_self .., hm, hrun⟩
    | some inner =>
      rw [hm] at hrun
      rcases ih inner with ⟨t, ht, hall, hms⟩ | ⟨m', e, hm', hnone, hms⟩
      · refine .inl ⟨t, ?_, ?_, hrun.trans hms⟩
        · cases ms with
          | nil => simpa [hm] using ht
          | cons a ms =>
            have hlast : (a :: ms).getLast? = some ((a :: ms).getLast (List.cons_ne_nil a ms)) :=
              List.getLast?_eq_some_getLast _
            rw [List.getLast?_cons_cons, hlast]
            rw [hlast] at ht
            exact ht
        · intro m' hm'
          rcases List.mem_cons.mp hm' with rfl | hm'
          · rw [hm]
            rfl
          · exact hall m' hm'
      · exact .inr ⟨m', e, List.mem_cons_of_mem _ hm', hnone, hrun.trans hms⟩

theorem importsOf_withImports {scope : ScopeRef} (hscope : scope < g.scopes.length)
    (imports : Identifier → Option (MetaId × ScopeRef)) (s : ScopeRef) :
    (g.withImports scope imports).importsOf s = if s = scope then imports else g.importsOf s := by
  show ((g.scopes.modify scope fun s => { s with imports := imports })[s]?).elim _ Scope.imports = _
  rw [List.getElem?_modify]
  by_cases hs : s = scope
  · subst hs
    rw [if_pos rfl, List.getElem?_eq_getElem hscope]
    simp
  · rw [if_neg hs]
    have hne : ¬ scope = s := fun h => hs h.symm
    unfold ScopeGraph.importsOf
    cases g.scopes[s]? with
    | none => rfl
    | some sc => simp [hne]

/-- A path is imported into the root, or the run ends there. -/
theorem declareImport_cons (hrt : Owned rt.graph) {path : List Identifier}
    {imports : List (List Identifier)} {r : Except String Unit} {trace : List Call}
    (h : (declareImport ScopeRef.GLOBAL (path :: imports)).run rt = some (r, rt', trace)) :
    (∃ e, r = .error e ∧ rt' = rt ∧ ¬ Passes rt [path]) ∨
      ∃ rt₁ trace' x, path.getLast? = some x ∧ Passes rt [path] ∧ Imported rt [path] rt₁ ∧
        (declareImport ScopeRef.GLOBAL imports).run rt₁ = some (r, rt', trace') := by
  rw [declareImport] at h
  cases hlast : path.getLast? with
  | none =>
    rw [hlast] at h
    rcases Traced.bind_cases h with ⟨e, hrun, -⟩ | ⟨last, rt₁, t₁, t₂, hrun, -, -⟩
    · cases hrun
    · cases hrun
  | some last =>
    rw [hlast] at h
    have h : (importScope ScopeRef.GLOBAL ScopeRef.GLOBAL path.dropLast >>= fun newScope =>
        insertImport ScopeRef.GLOBAL ⟨newScope, last⟩ >>= fun _ =>
          declareImport ScopeRef.GLOBAL imports).run rt = some (r, rt', trace) := by
      rw [← h]
      exact congrFun (Traced.pure_bind last fun last =>
        importScope ScopeRef.GLOBAL ScopeRef.GLOBAL path.dropLast >>= fun newScope =>
          insertImport ScopeRef.GLOBAL ⟨newScope, last⟩ >>= fun _ =>
            declareImport ScopeRef.GLOBAL imports).symm rt
    rcases @importScope_run rt ScopeRef.GLOBAL path.dropLast with
      ⟨t, ht, hparts, hscope⟩ | ⟨m, e, hm, hnone, hscope⟩
    · rcases Traced.bind_cases h with ⟨e, hrun, -⟩ | ⟨s, rt₁, t₁, t₂, hrun, hafter, -⟩
      · rw [hscope] at hrun
        cases hrun
      rw [hscope] at hrun
      obtain ⟨hs, hrest⟩ := Prod.mk.inj (Option.some.inj hrun)
      obtain ⟨rfl, -⟩ := Prod.mk.inj hrest
      obtain rfl := Except.ok.inj hs
      cases himport : rt.graph.importsOf ScopeRef.GLOBAL last with
      | some old =>
        -- the identifier has been imported before
        have hrun' : (insertImport ScopeRef.GLOBAL ⟨t, last⟩).run rt =
            some (.error "Name declared twice!", rt, []) := by
          show insertImport ScopeRef.GLOBAL ⟨t, last⟩ rt = _
          unfold insertImport ScopeGraph.insertImport
          simp only [himport]
        rcases Traced.bind_cases hafter with ⟨e, hrun, rfl⟩ | ⟨u, rt₂, t₃, t₄, hrun, -, -⟩
        · rw [hrun'] at hrun
          obtain ⟨-, hrest⟩ := Prod.mk.inj (Option.some.inj hrun)
          obtain ⟨rfl, -⟩ := Prod.mk.inj hrest
          refine .inl ⟨e, rfl, rfl, fun hpasses => ?_⟩
          have hfree := hpasses.free path (List.mem_singleton_self path) last hlast
          rw [himport] at hfree
          cases hfree
        · rw [hrun'] at hrun
          cases hrun
      | none =>
        let graph := rt.graph.withImports ScopeRef.GLOBAL
          (Function.update (rt.graph.importsOf ScopeRef.GLOBAL) last (some (0, t)))
        have hrun' : (insertImport ScopeRef.GLOBAL ⟨t, last⟩).run rt =
            some (.ok (), { rt with graph := graph }, []) := by
          show insertImport ScopeRef.GLOBAL ⟨t, last⟩ rt = _
          unfold insertImport ScopeGraph.insertImport
          simp only [himport]
          rfl
        have himports := @importsOf_withImports rt.graph ScopeRef.GLOBAL hrt.root
          (Function.update (rt.graph.importsOf ScopeRef.GLOBAL) last (some (0, t)))
        have htarget : rt.target path = some t := ht
        rcases Traced.bind_cases hafter with ⟨e, hrun, rfl⟩ | ⟨u, rt₂, t₃, t₄, hrun, hrest, -⟩
        · rw [hrun'] at hrun
          cases hrun
        rw [hrun'] at hrun
        obtain ⟨-, hstate⟩ := Prod.mk.inj (Option.some.inj hrun)
        obtain ⟨rfl, -⟩ := Prod.mk.inj hstate
        refine .inr ⟨{ rt with graph := graph }, t₄, last, rfl, ⟨?_, ?_, ?_⟩,
          ⟨rfl, ?_, ?_, ?_, ?_⟩, hrest⟩
        · intro p hp
          obtain rfl := List.mem_singleton.mp hp
          exact hparts
        · exact List.nodup_singleton _
        · intro p hp x hx
          obtain rfl := List.mem_singleton.mp hp
          rw [hlast] at hx
          obtain rfl := Option.some.inj hx
          exact himport
        · exact List.length_modify ..
        · intro s hs
          show graph.importsOf s = _
          rw [himports, if_neg hs]
        · intro p hp x hx
          obtain rfl := List.mem_singleton.mp hp
          rw [hlast] at hx
          obtain rfl := Option.some.inj hx
          refine ⟨t, htarget, ?_⟩
          show graph.importsOf ScopeRef.GLOBAL last = _
          rw [himports, if_pos rfl, Function.update_self]
        · intro x hx
          have hne : x ≠ last := by
            rintro rfl
            exact hx path (List.mem_singleton_self path) hlast
          show graph.importsOf ScopeRef.GLOBAL x = _
          rw [himports, if_pos rfl, Function.update_of_ne hne]
    · rcases Traced.bind_cases h with ⟨e', hrun, rfl⟩ | ⟨s, rt₁, t₁, t₂, hrun, -, -⟩
      · rw [hscope] at hrun
        obtain ⟨-, hrest⟩ := Prod.mk.inj (Option.some.inj hrun)
        obtain ⟨rfl, -⟩ := Prod.mk.inj hrest
        refine .inl ⟨e', rfl, rfl, fun hpasses => ?_⟩
        have hsome := hpasses.parts path (List.mem_singleton_self path) m hm
        rw [hnone] at hsome
        cases hsome
      · rw [hscope] at hrun
        cases hrun

theorem Imported.owned {paths : List (List Identifier)} (h : Imported rt paths rt')
    (hrt : Owned rt.graph) : Owned rt'.graph where
  root := by
    rw [h.length]
    exact hrt.root
  newer := by
    rw [h.declarations, h.length]
    exact hrt.newer
  unique := by
    rw [h.declarations]
    exact hrt.unique
  imports := by
    intro s x id t hx
    rw [h.declarations]
    by_cases hs : s = ScopeRef.GLOBAL
    · subst hs
      refine ⟨rfl, ?_⟩
      by_cases hold : ∀ p ∈ paths, p.getLast? ≠ some x
      · rw [h.old x hold] at hx
        exact (hrt.imports _ _ _ _ hx).2
      · push Not at hold
        obtain ⟨p, hp, hlast⟩ := hold
        obtain ⟨t', ht', hx'⟩ := h.new p hp x hlast
        rw [hx] at hx'
        obtain ⟨-, rfl⟩ := Prod.mk.inj (Option.some.inj hx')
        unfold Rt.target at ht'
        cases hm : p.dropLast.getLast? with
        | none =>
          rw [hm] at ht'
          exact .inl (Option.some.inj ht').symm
        | some m =>
          rw [hm] at ht'
          obtain ⟨d, hd, hscope⟩ := scopeOf_some.mp ht'
          exact .inr ⟨m, d, hd, hscope⟩
    · rw [h.other s hs] at hx
      exact absurd (hrt.imports s x id t hx).1 hs

/-- What passes before a path still passes, and the path passes after what is imported. -/
theorem Passes.cons_iff {p : List Identifier} {ps : List (List Identifier)} {rt₁ : Rt} {x : Identifier}
    (hp : Passes rt [p]) (h : Imported rt [p] rt₁) (hx : p.getLast? = some x) :
    Passes rt (p :: ps) ↔ Passes rt₁ ps := by
  have hfree : ∀ q ∈ ps, ∀ y, q.getLast? = some y → p.getLast? ≠ q.getLast? →
      rt₁.graph.importsOf ScopeRef.GLOBAL y = rt.graph.importsOf ScopeRef.GLOBAL y := by
    intro q hq y hy hne
    refine h.old y fun p' hp' => ?_
    obtain rfl := List.mem_singleton.mp hp'
    rw [← hy]
    exact hne
  constructor
  · intro hall
    have hnames := hall.names
    rw [List.map_cons, List.nodup_cons, List.mem_map] at hnames
    refine ⟨fun q hq m hm => ?_, hnames.2, fun q hq y hy => ?_⟩
    · rw [h.scopeOf]
      exact hall.parts q (List.mem_cons_of_mem _ hq) m hm
    · rw [hfree q hq y hy fun heq => hnames.1 ⟨q, hq, heq.symm⟩]
      exact hall.free q (List.mem_cons_of_mem _ hq) y hy
  · intro hall
    have hnew : ∀ q ∈ ps, p.getLast? ≠ q.getLast? := by
      intro q hq heq
      rw [hx] at heq
      obtain ⟨t, -, himport⟩ := h.new p (List.mem_singleton_self p) x hx
      have hnone := hall.free q hq x heq.symm
      rw [himport] at hnone
      cases hnone
    refine ⟨?_, ?_, ?_⟩
    · intro q hq m hm
      rcases List.mem_cons.mp hq with rfl | hq
      · exact hp.parts q (List.mem_singleton_self q) m hm
      · rw [← h.scopeOf]
        exact hall.parts q hq m hm
    · rw [List.map_cons, List.nodup_cons, List.mem_map]
      refine ⟨?_, hall.names⟩
      rintro ⟨q, hq, heq⟩
      exact hnew q hq heq.symm
    · intro q hq y hy
      rcases List.mem_cons.mp hq with rfl | hq
      · exact hp.free q (List.mem_singleton_self q) y hy
      · rw [← hfree q hq y hy (hnew q hq)]
        exact hall.free q hq y hy

theorem Imported.cons {p : List Identifier} {ps : List (List Identifier)} {rt₁ : Rt}
    (h : Imported rt [p] rt₁) (h' : Imported rt₁ ps rt')
    (hnames : ((p :: ps).map List.getLast?).Nodup) : Imported rt (p :: ps) rt' where
  declarations := h'.declarations.trans h.declarations
  length := h'.length.trans h.length
  other := fun s hs => (h'.other s hs).trans (h.other s hs)
  new := by
    rw [List.map_cons, List.nodup_cons, List.mem_map] at hnames
    intro q hq x hx
    rcases List.mem_cons.mp hq with rfl | hq
    · obtain ⟨t, ht, himport⟩ := h.new q (List.mem_singleton_self q) x hx
      refine ⟨t, ht, ?_⟩
      rw [h'.old x, himport]
      intro q' hq' hx'
      exact hnames.1 ⟨q', hq', hx'.trans hx.symm⟩
    · obtain ⟨t, ht, himport⟩ := h'.new q hq x hx
      rw [h.target] at ht
      exact ⟨t, ht, himport⟩
  old := by
    intro x hx
    rw [h'.old x fun q hq => hx q (List.mem_cons_of_mem _ hq), h.old x]
    intro q hq
    obtain rfl := List.mem_singleton.mp hq
    exact hx q (List.mem_cons_self ..)

theorem Passes.left {ps qs : List (List Identifier)} (h : Passes rt (ps ++ qs)) : Passes rt ps where
  parts := fun p hp => h.parts p (List.mem_append_left _ hp)
  names := by
    have hnames := h.names
    rw [List.map_append] at hnames
    exact hnames.of_append_left
  free := fun p hp => h.free p (List.mem_append_left _ hp)

/-- The imports end with the last path, or at the first one that does not pass. -/
theorem declareImport_run (hrt : Owned rt.graph) {paths : List (List Identifier)}
    {r : Except String Unit} {trace : List Call}
    (h : (declareImport ScopeRef.GLOBAL paths).run rt = some (r, rt', trace)) :
    ∃ done rest, paths = done ++ rest ∧ Passes rt done ∧ Imported rt done rt' ∧
      (rest = [] ∧ r = .ok () ∨
        ∃ p rest' e, rest = p :: rest' ∧ r = .error e ∧ ¬ Passes rt (done ++ [p])) := by
  induction paths generalizing rt trace with
  | nil =>
    obtain ⟨rfl, rfl, -⟩ := Traced.ofPure_run h
    exact ⟨[], [], rfl, ⟨fun _ h => (nomatch h), .nil, fun _ h => (nomatch h)⟩, .nil rt', .inl ⟨rfl, rfl⟩⟩
  | cons path paths ih =>
    rcases declareImport_cons hrt h with
      ⟨e, rfl, rfl, hfails⟩ | ⟨rt₁, trace', x, hx, hpasses, himported, hrest⟩
    · exact ⟨[], path :: paths, rfl, ⟨fun _ h => (nomatch h), .nil, fun _ h => (nomatch h)⟩, .nil rt',
        .inr ⟨path, paths, e, rfl, rfl, hfails⟩⟩
    · obtain ⟨done, rest, rfl, hdone, himported', hend⟩ := ih (himported.owned hrt) hrest
      have hall : Passes rt (path :: done) := (hpasses.cons_iff himported hx).mpr hdone
      refine ⟨path :: done, rest, rfl, hall, himported.cons himported' hall.names, ?_⟩
      refine hend.imp_right ?_
      rintro ⟨p, rest', e, rfl, rfl, hfails⟩
      refine ⟨p, rest', e, rfl, rfl, fun h => hfails ?_⟩
      exact (hpasses.cons_iff himported hx).mp h

/-! ### The imports of a library -/

theorem declareImport_append (scope : ScopeRef) (as bs : List (List Identifier)) :
    declareImport scope (as ++ bs) = declareImport scope as >>= fun _ => declareImport scope bs := by
  induction as with
  | nil => exact (Traced.pure_bind _ _).symm
  | cons a as ih =>
    rw [List.cons_append, declareImport, ih, declareImport]
    simp only [Traced.bind_assoc]

mutual

theorem declareImportsOf_eq (scope : ScopeRef) (inside : List Identifier) (item : Item ids) :
    declareImportsOf ids scope item =
      declareImport scope ((usesOf inside item).map PlacedUse.path) := by
  cases item with
  | use imports =>
    have hpaths : (usesOf inside (.use imports : Item ids)).map PlacedUse.path = imports := by
      simp [usesOf, List.map_map, Function.comp_def]
    rw [hpaths, declareImportsOf]
  | module ident children =>
    rw [declareImportsOf, usesOf]
    exact declareImports_eq scope (inside ++ [ident]) children
  | _ => rfl

/-- The imports are made one after the other, in the scope in which the first one is made. -/
theorem declareImports_eq (scope : ScopeRef) (inside : List Identifier) (items : List (Item ids)) :
    declareImports ids scope items =
      declareImport scope ((uses inside items).map PlacedUse.path) := by
  cases items with
  | nil => rfl
  | cons item items =>
    rw [declareImports, uses, List.map_append, declareImport_append,
      declareImportsOf_eq scope inside item, declareImports_eq scope inside items]

end

theorem add_eq (items : List (Item ids)) :
    add ids items = declareItems ids items >>= fun _ =>
      declareImport ScopeRef.GLOBAL ((uses [] items).map PlacedUse.path) := by
  rw [← declareImports_eq ScopeRef.GLOBAL [] items]
  unfold add declareItems
  simp only [Traced.bind_assoc]

/-- The scopes stay apart in every state that additions of libraries reach. -/
theorem owned_addAll {libs : List (List (Item ids))} {calls : List Call} (hrt : Owned rt.graph)
    (h : addAll ids libs rt = some (rt', calls)) : Owned rt'.graph := by
  induction libs generalizing rt calls with
  | nil =>
    obtain ⟨rfl, -⟩ := Prod.mk.inj (Option.some.inj h)
    exact hrt
  | cons lib libs ih =>
    unfold addAll at h
    split at h
    · cases h
    next r rt₁ calls₁ hadd =>
      split at h
      · cases h
      next rt₂ calls₂ hrest =>
        obtain ⟨rfl, -⟩ := Prod.mk.inj (Option.some.inj h)
        refine ih ?_ hrest
        rw [add_eq] at hadd
        rcases Traced.bind_cases hadd with ⟨e, hitems, -⟩ | ⟨u, rt₃, t₁, t₂, hitems, himports, -⟩
        · exact (declareItems_kept hrt hitems).owned
        · have hrt₃ := (declareItems_kept hrt hitems).owned
          obtain ⟨done, rest, -, -, himported, -⟩ := declareImport_run hrt₃ himports
          exact himported.owned hrt₃

/-! ### Imports that resolve as they are written -/

/-- Looking the import up does not panic: what it names is declared, or the root declares the
identifier itself. -/
def PlacedUse.Safe (u : PlacedUse) (rt : Rt) : Prop :=
  ∀ x t, u.path.getLast? = some x → rt.target u.path = some t →
    (rt.graph.declarations ⟨ScopeRef.GLOBAL, x⟩).isSome ∨ (rt.graph.declarations ⟨t, x⟩).isSome

/-- A single identifier is declared where the `use` stands and in the root; a path with one module
or type stands in the root, which does not declare the identifier itself. No longer path will
do. -/
def PlacedUse.Plain (u : PlacedUse) (rt : Rt) : Prop :=
  match u.path with
  | [x] => (∃ s, rt.walk ScopeRef.GLOBAL u.inside = some s ∧
      (rt.graph.declarations ⟨s, x⟩).isSome) ∧ (rt.graph.declarations ⟨ScopeRef.GLOBAL, x⟩).isSome
  | [m, x] => u.inside = [] ∧ rt.graph.declarations ⟨ScopeRef.GLOBAL, x⟩ = none ∧
      ∃ t, rt.scopeOf ScopeRef.GLOBAL m = some t ∧ (rt.graph.declarations ⟨t, x⟩).isSome
  | _ => False

/-- The imports that are reached are safe, and if all of them are, they are plain. -/
def ImportsMeet (ids : RustTypes) (items : List (Item ids)) (rt : Rt) : Prop :=
  ∀ rt₁ trace, (declareItems ids items).run rt = some (.ok (), rt₁, trace) →
    (∀ us, us <+: uses [] items → Passes rt₁ (us.map PlacedUse.path) → ∀ u ∈ us, u.Safe rt₁) ∧
      (Passes rt₁ ((uses [] items).map PlacedUse.path) → ∀ u ∈ uses [] items, u.Plain rt₁)

theorem Imported.resolves {paths : List (List Identifier)} (h : Imported rt paths rt')
    (u : PlacedUse) : u.ResolvesAsWritten rt' ↔ ∃ x s t d, u.path.getLast? = some x ∧
      rt.walk ScopeRef.GLOBAL u.inside = some s ∧ rt.walk s u.path.dropLast = some t ∧
      rt.graph.declarations ⟨t, x⟩ = some d ∧ rt'.graph.lookup s x true = some (some d) := by
  unfold PlacedUse.ResolvesAsWritten
  simp only [h.walk, h.declarations]

/-- A path through more than one module, or one in a module, is not what its import names. -/
theorem root_of_found (hrt : Owned rt.graph) {s q t : ScopeRef} {m x : Identifier}
    {d : Declaration} (hq : s ≤ q) (ht : rt.scopeOf q m = some t)
    (hd : rt.graph.declarations ⟨t, x⟩ = some d) (hfound : rt.graph.lookup s x true = some (some d)) :
    q = ScopeRef.GLOBAL := by
  obtain ⟨e, he, hscope⟩ := scopeOf_some.mp ht
  have hname : d.name = ⟨t, x⟩ := rt.graph.named _ _ hd
  have hlt := (hrt.scopeOf ht).1
  rcases lookup_found hrt hfound with hle | ⟨m', e', he', hscope'⟩
  · rw [hname] at hle
    exact absurd (Nat.lt_of_lt_of_le hlt hle) (Nat.not_lt.mpr hq)
  · rw [hname] at hscope'
    have hsame := hrt.unique _ _ e e' t he he' hscope hscope'
    exact congrArg ResolvedName.scope hsame

/-- What resolves as it is written is plain. -/
theorem plain_of_resolves (hrt : Owned rt.graph) {paths : List (List Identifier)}
    (h : Imported rt paths rt') (hsafe : rt'.graph.LookupsSafe) {u : PlacedUse}
    (hu : u.path ∈ paths) (hresolves : u.ResolvesAsWritten rt') : u.Plain rt := by
  have hrt' := h.owned hrt
  obtain ⟨x, s, t, d, hx, hs, ht, hd, hfound⟩ := hresolves
  unfold PlacedUse.Plain
  rcases hpath : u.path with _ | ⟨m, _ | ⟨y, _ | ⟨z, rest⟩⟩⟩
  · rw [hpath] at hx
    cases hx
  · -- a single identifier
    rw [hpath] at hx ht
    obtain rfl : m = x := Option.some.inj hx
    obtain rfl := Option.some.inj ht
    rw [h.walk] at hs
    rw [h.declarations] at hd
    refine ⟨⟨s, hs, by rw [hd]; rfl⟩, ?_⟩
    obtain ⟨t', ht', himport⟩ := h.new u.path hu m (by rw [hpath]; rfl)
    rw [hpath] at ht'
    obtain rfl := Option.some.inj ht'
    have hdeclared := lookupsSafe_iff.mp hsafe _ _ _ _ himport
    rw [h.declarations, or_self] at hdeclared
    exact hdeclared
  · -- one module or type
    rw [hpath] at hx ht
    obtain rfl : y = x := Option.some.inj hx
    have ht : rt'.scopeOf s m = some t := by
      obtain ⟨q, hq, ht⟩ := Option.bind_eq_some_iff.mp ht
      obtain rfl := Option.some.inj ht
      exact hq
    obtain rfl := root_of_found hrt' le_rfl ht hd hfound
    have hinside : u.inside = [] := by
      by_contra hne
      exact lt_irrefl _ ((walk_newer hrt' hs).2 hne)
    rw [h.declarations] at hd
    refine ⟨hinside, ?_, t, (h.scopeOf _ _).symm.trans ht, by rw [hd]; rfl⟩
    cases hroot : rt.graph.declarations ⟨ScopeRef.GLOBAL, y⟩ with
    | none => rfl
    | some d' =>
      have hroot' : rt'.graph.declarations ⟨ScopeRef.GLOBAL, y⟩ = some d' := by
        rw [h.declarations]
        exact hroot
      rw [lookup_declared true hroot'] at hfound
      obtain rfl := Option.some.inj (Option.some.inj hfound)
      have hname := (rt.graph.named _ _ hd).symm.trans (rt.graph.named _ _ hroot)
      have hroot : t = ScopeRef.GLOBAL := congrArg ResolvedName.scope hname
      have hlt := (hrt'.scopeOf ht).1
      rw [hroot] at hlt
      exact absurd hlt (lt_irrefl _)
  · -- a longer path ends in a scope that does not belong to the root
    rw [hpath] at hx ht
    obtain ⟨ms, a, b, hms⟩ : ∃ ms a b, (m :: y :: z :: rest).dropLast = (a :: ms) ++ [b] := by
      refine ⟨(y :: z :: rest).dropLast.dropLast, m, (y :: z :: rest).dropLast.getLast (by simp), ?_⟩
      have hsplit := List.dropLast_concat_getLast
        (show (y :: z :: rest).dropLast ≠ [] by simp)
      show m :: (y :: z :: rest).dropLast = m :: (_ ++ [_])
      rw [hsplit]
    rw [hms, walk_snoc] at ht
    obtain ⟨q, hq, ht⟩ := Option.bind_eq_some_iff.mp ht
    have hlt := (walk_newer hrt' hq).2 (List.cons_ne_nil a ms)
    have hroot := root_of_found hrt' (Nat.le_of_lt hlt) ht hd hfound
    rw [hroot] at hlt
    exact absurd hlt (Nat.not_lt_zero s)

/-- What is plain resolves as it is written. -/
theorem resolves_of_plain {paths : List (List Identifier)} (h : Imported rt paths rt')
    {u : PlacedUse} (hu : u.path ∈ paths) (hplain : u.Plain rt) : u.ResolvesAsWritten rt' := by
  rw [h.resolves]
  unfold PlacedUse.Plain at hplain
  rcases hpath : u.path with _ | ⟨m, _ | ⟨y, _ | ⟨z, rest⟩⟩⟩
  · rw [hpath] at hplain
    exact hplain.elim
  · rw [hpath] at hplain
    obtain ⟨⟨s, hs, hd⟩, -⟩ := hplain
    obtain ⟨d, hd⟩ := Option.isSome_iff_exists.mp hd
    refine ⟨m, s, s, d, rfl, hs, rfl, hd, ?_⟩
    exact lookup_declared true (by rw [h.declarations]; exact hd)
  · rw [hpath] at hplain
    obtain ⟨hinside, hnone, t, ht, hd⟩ := hplain
    obtain ⟨d, hd⟩ := Option.isSome_iff_exists.mp hd
    obtain ⟨t', ht', himport⟩ := h.new u.path hu y (by rw [hpath]; rfl)
    rw [hpath] at ht'
    obtain rfl := Option.some.inj (ht.symm.trans ht')
    refine ⟨y, ScopeRef.GLOBAL, t, d, rfl, by rw [hinside]; rfl, ?_, hd, ?_⟩
    · show (rt.scopeOf ScopeRef.GLOBAL m).bind _ = some t
      rw [ht]
      rfl
    · rw [lookup_imported (by rw [h.declarations]; exact hnone) himport, h.declarations, hd]
      rfl
  · rw [hpath] at hplain
    exact hplain.elim

/-- The imports that have been made are safe to look up, along with those that were there. -/
theorem lookupsSafe_imported {us : List PlacedUse}
    (h : Imported rt (us.map PlacedUse.path) rt') (hrt : Owned rt.graph)
    (hsafe : rt.graph.LookupsSafe) :
    rt'.graph.LookupsSafe ↔ ∀ u ∈ us, u.Safe rt := by
  rw [lookupsSafe_iff] at hsafe ⊢
  rw [h.declarations]
  constructor
  · intro hall u hu x t hx ht
    obtain ⟨t', ht', himport⟩ := h.new u.path (List.mem_map_of_mem hu) x hx
    obtain rfl := Option.some.inj (ht.symm.trans ht')
    exact hall _ x 0 t himport
  · intro hall s x id t himport
    have hroot := ((h.owned hrt).imports s x id t himport).1
    subst hroot
    by_cases hold : ∀ p ∈ us.map PlacedUse.path, p.getLast? ≠ some x
    · rw [h.old x hold] at himport
      exact hsafe _ x id t himport
    · push Not at hold
      obtain ⟨p, hp, hx⟩ := hold
      obtain ⟨t', ht', himport'⟩ := h.new p hp x hx
      rw [himport] at himport'
      obtain ⟨-, rfl⟩ := Prod.mk.inj (Option.some.inj himport')
      obtain ⟨u, hu, rfl⟩ := List.mem_map.mp hp
      exact hall u hu x t hx ht'

theorem Kept.lookupsSafe (h : Kept rt rt') (hsafe : rt.graph.LookupsSafe) :
    rt'.graph.LookupsSafe := by
  have hkeep : ∀ n, (rt.graph.declarations n).isSome → (rt'.graph.declarations n).isSome := by
    intro n hn
    obtain ⟨d, hd⟩ := Option.isSome_iff_exists.mp hn
    rw [h.later.declarations n d hd]
    rfl
  rw [lookupsSafe_iff] at hsafe ⊢
  intro s x id t himport
  rw [h.later.imports s] at himport
  exact (hsafe s x id t himport).imp (hkeep _) (hkeep _)

/-- After a library has been added, no lookup panics, and if it has been accepted, its imports
resolve as they are written, if and only if the imports meet their condition. -/
theorem imports_resolve_iff {libs : List (List (Item ids))} {calls : List Call}
    (h : addAll ids libs Rt.new = some (rt, calls)) (hsafe : rt.graph.LookupsSafe)
    {items : List (Item ids)} {result : Except String Unit} {trace : List Call}
    (hadd : (add ids items).run rt = some (result, rt', trace)) :
    (rt'.graph.LookupsSafe ∧
        (result = .ok () → ∀ u ∈ uses [] items, u.ResolvesAsWritten rt')) ↔
      ImportsMeet ids items rt := by
  have hrt := owned_addAll new_kept.owned h
  rw [add_eq] at hadd
  rcases Traced.bind_cases hadd with ⟨e, hitems, rfl⟩ | ⟨⟨⟩, rt₁, t₁, t₂, hitems, himports, -⟩
  · refine iff_of_true ⟨(declareItems_kept hrt hitems).lookupsSafe hsafe, fun h => by cases h⟩ ?_
    intro rt₁ trace₁ hrun
    rw [hitems] at hrun
    cases hrun
  · have hkept := declareItems_kept hrt hitems
    have hsafe₁ := hkept.lookupsSafe hsafe
    obtain ⟨done, rest, hsplit, hpasses, himported, hend⟩ := declareImport_run hkept.owned himports
    obtain ⟨us, vs, huses, rfl, rfl⟩ := List.map_eq_append_iff.mp hsplit
    have hlookups := lookupsSafe_imported himported hkept.owned hsafe₁
    have hmeet : ImportsMeet ids items rt ↔
        (∀ ws, ws <+: uses [] items → Passes rt₁ (ws.map PlacedUse.path) → ∀ u ∈ ws, u.Safe rt₁) ∧
          (Passes rt₁ ((uses [] items).map PlacedUse.path) → ∀ u ∈ uses [] items, u.Plain rt₁) := by
      refine ⟨fun hall => hall rt₁ t₁ hitems, fun hall rt₂ t₃ hrun => ?_⟩
      rw [hitems] at hrun
      obtain ⟨-, hrest⟩ := Prod.mk.inj (Option.some.inj hrun)
      obtain ⟨rfl, -⟩ := Prod.mk.inj hrest
      exact hall
    -- what passes is a part of what has been imported
    have hpre : ∀ ws, ws <+: uses [] items → Passes rt₁ (ws.map PlacedUse.path) →
        ∀ u ∈ ws, u ∈ us := by
      intro ws hws hpass u hu
      rw [huses] at hws
      rcases hend with ⟨hnil, -⟩ | ⟨p, rest', e, hrest, -, hfails⟩
      · obtain rfl := List.map_eq_nil_iff.mp hnil
        rw [List.append_nil] at hws
        exact hws.subset hu
      · obtain ⟨v, vs', rfl, rfl, -⟩ := List.map_eq_cons_iff.mp hrest
        by_cases hlen : ws.length ≤ us.length
        · exact (List.prefix_of_prefix_length_le hws (List.prefix_append us _) hlen).subset hu
        · have hlonger : us ++ [v] <+: ws := by
            refine List.prefix_of_prefix_length_le ?_ hws (by simp; omega)
            exact ⟨vs', by simp⟩
          obtain ⟨ws', rfl⟩ := hlonger
          rw [List.map_append, List.map_append] at hpass
          exact absurd hpass.left hfails
    rw [hmeet, hlookups]
    constructor
    · rintro ⟨hall, hresolves⟩
      refine ⟨fun ws hws hpass u hu => hall u (hpre ws hws hpass u hu), fun hpass u hu => ?_⟩
      have hmem := hpre _ (List.prefix_refl _) hpass u hu
      have hok : result = .ok () := by
        rcases hend with ⟨-, hok⟩ | ⟨p, rest', e, hrest, -, hfails⟩
        · exact hok
        · obtain ⟨v, vs', rfl, rfl, -⟩ := List.map_eq_cons_iff.mp hrest
          refine absurd ?_ hfails
          rw [huses, List.map_append, List.map_cons, List.append_cons] at hpass
          exact hpass.left
      exact plain_of_resolves hkept.owned himported (hlookups.mpr hall) (List.mem_map_of_mem hmem)
        (hresolves hok u hu)
    · rintro ⟨hall, hplain⟩
      refine ⟨hall us ⟨vs, huses.symm⟩ hpasses, ?_⟩
      rintro rfl u hu
      rcases hend with ⟨hnil, -⟩ | ⟨p, rest', e, -, herror, -⟩
      · obtain rfl := List.map_eq_nil_iff.mp hnil
        rw [List.append_nil] at huses
        rw [← huses] at hpasses himported
        exact resolves_of_plain himported (List.mem_map_of_mem hu) (hplain hpasses u hu)
      · cases herror

/-! ### A module with one type -/

theorem new_safe : Rt.new.graph.LookupsSafe := by
  rw [lookupsSafe_iff]
  intro s x id t h
  rw [new_imports] at h
  cases h

namespace Example

/-- `mod foo { type Bar } use foo.Bar` -/
def usesBar : List (Item rustTypes) := moduleWith "Bar" ++ [.use [["foo", "Bar"]]]

/-- `mod foo { type Bar } use foo.Baz` -/
def usesBaz : List (Item rustTypes) := moduleWith "Bar" ++ [.use [["foo", "Baz"]]]

theorem usesBar_declared : ((declareItems rustTypes usesBar).run Rt.new).all (fun p =>
    (p.2.1.graph.declarations ⟨ScopeRef.GLOBAL, "Bar"⟩).isNone &&
      (p.2.1.scopeOf ScopeRef.GLOBAL "foo").any fun t =>
        (p.2.1.graph.declarations ⟨t, "Bar"⟩).isSome) = true := by
  decide +kernel

theorem usesBar_meets : ImportsMeet rustTypes usesBar Rt.new := by
  intro rt₁ trace hrun
  have hdeclared := usesBar_declared
  rw [hrun, Option.all_some, Bool.and_eq_true, Option.isNone_iff_eq_none, Option.any_eq_true] at hdeclared
  obtain ⟨hnone, t, ht, hsome⟩ := hdeclared
  have huses : uses [] usesBar = [⟨[], ["foo", "Bar"]⟩] := rfl
  rw [huses]
  constructor
  · intro us hus _ u hu
    obtain rfl := List.mem_singleton.mp (hus.subset hu)
    intro x t' hx ht'
    obtain rfl : "Bar" = x := Option.some.inj hx
    obtain rfl := Option.some.inj (ht.symm.trans ht')
    exact .inr hsome
  · intro _ u hu
    obtain rfl := List.mem_singleton.mp hu
    exact ⟨rfl, hnone, t, ht, hsome⟩

end Example

theorem imports_resolve_bar : ∃ rt' trace,
    (add Example.rustTypes Example.usesBar).run Rt.new = some (.ok (), rt', trace) ∧
      rt'.graph.LookupsSafe ∧ ∀ u ∈ uses [] Example.usesBar, u.ResolvesAsWritten rt' := by
  have h : ((add Example.rustTypes Example.usesBar).run Rt.new).any (fun p => p.1.isOk) = true := by
    decide +kernel
  obtain ⟨⟨result, rt', trace⟩, hrun, hok⟩ := (Option.any_eq_true _ _).mp h
  have hresult : result = .ok () := by
    cases result with
    | ok u => rfl
    | error e => cases hok
  subst hresult
  obtain ⟨hsafe, hresolves⟩ := (@imports_resolve_iff Example.rustTypes Rt.new rt' [] [] rfl new_safe
    Example.usesBar _ trace hrun).mpr Example.usesBar_meets
  exact ⟨rt', trace, hrun, hsafe, hresolves rfl⟩

/-- What is imported need not be declared, and then its lookup panics. -/
theorem import_baz_panics :
    ¬ ∀ (ids : RustTypes) (libs : List (List (Item ids))) rt calls (items : List (Item ids)) result
      rt' trace, addAll ids libs Rt.new = some (rt, calls) → rt.graph.LookupsSafe →
        (add ids items).run rt = some (result, rt', trace) →
          rt'.graph.LookupsSafe ∧ (result = .ok () → ∀ u ∈ uses [] items, u.ResolvesAsWritten rt') := by
  intro hall
  have h : ((add Example.rustTypes Example.usesBaz).run Rt.new).any (fun p => p.1.isOk &&
      (p.2.1.graph.lookup ScopeRef.GLOBAL "Baz" true).isNone) = true := by
    decide +kernel
  obtain ⟨⟨result, rt', trace⟩, hrun, hok⟩ := (Option.any_eq_true _ _).mp h
  have hsafe := (hall Example.rustTypes [] Rt.new [] Example.usesBaz result rt' trace rfl new_safe
    hrun).1 ScopeRef.GLOBAL "Baz" true
  have hnone := (Bool.and_eq_true_iff.mp hok).2
  rw [Option.isNone_iff_eq_none] at hnone
  rw [hnone] at hsafe
  cases hsafe

end Roto.Runtime
