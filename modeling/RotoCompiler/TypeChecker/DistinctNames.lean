import RotoCompiler.TypeChecker.FullNames

/-!
# Different items have different names

A full name is the path of the module, joined by dots, and the identifier of the item. Which
names collide can be seen from the names of the modules.
-/

namespace Roto.TypeChecker
open Lib Lib.FlatNames

section
variable {u : Parser.Unicode} {g g' g'' : NameGraph}
  {scope : ScopeRef} {scopes : List ScopeRef}

/-! ### Growing -/

theorem Grows.refl (g : NameGraph) : Grows g g :=
  ⟨List.prefix_refl _, fun _ d h => ⟨d, h, rfl, id⟩⟩

theorem Grows.trans (h : Grows g g') (h' : Grows g' g'') : Grows g g'' := by
  refine ⟨h.scopes.trans h'.scopes, ?_⟩
  intro n d hd
  obtain ⟨d', hd', hkind, heval⟩ := h.declarations n d hd
  obtain ⟨d'', hd'', hkind', heval'⟩ := h'.declarations n d' hd'
  exact ⟨d'', hd'', hkind'.trans hkind, fun h => heval' (heval h)⟩

theorem Grows.getElem? (h : Grows g g') {i : ScopeRef} {s : NamedScope}
    (hs : g.scopes[i]? = some s) : g'.scopes[i]? = some s := by
  obtain ⟨more, hmore⟩ := h.scopes
  obtain ⟨hlt, -⟩ := List.getElem?_eq_some_iff.mp hs
  rw [← hmore, List.getElem?_append_left hlt]
  exact hs

theorem grows_wrap (g : NameGraph) (parent : ScopeRef) (t : NamedScopeType) :
    Grows g (g.wrap parent t) :=
  ⟨List.prefix_append _ _, fun _ d h => ⟨d, h, rfl, id⟩⟩

/-- What an insertion does: the declaration is there afterwards, and before it was not, or it
was one that may be updated. -/
theorem insertDeclaration_run {ident reported : Meta Identifier} {kind : DeclarationKind}
    {evaluated : Bool} {updateIf : NamedDeclaration → Bool}
    (hupdate : ∀ d, updateIf d = true → d.kind = kind ∧ d.evaluated = false)
    (h : (orDeclaredTwice reported
      (g.insertDeclaration scope ident kind evaluated updateIf)).run = some (.ok g')) :
    Grows g g' ∧
      (∀ d, g.declarations ⟨scope, ident.node⟩ = some d → updateIf d = true) ∧
      ∃ d, g'.declarations ⟨scope, ident.node⟩ = some d ∧ d.kind = kind ∧
        d.evaluated = evaluated := by
  unfold NameGraph.insertDeclaration at h
  cases hold : g.declarations ⟨scope, ident.node⟩ with
  | none =>
    rw [hold] at h
    cases h
    refine ⟨⟨List.prefix_refl _, ?_⟩, (fun d hd => nomatch hd), ?_⟩
    · intro n d hd
      have hne : n ≠ ⟨scope, ident.node⟩ := by
        rintro rfl
        rw [hold] at hd
        cases hd
      exact ⟨d, (Function.update_of_ne hne ..).trans hd, rfl, id⟩
    · exact ⟨_, Function.update_self .., rfl, rfl⟩
  | some old =>
    rw [hold] at h
    by_cases hup : updateIf old = true
    · simp only [hup, if_true] at h
      cases h
      obtain ⟨hkind, hstub⟩ := hupdate old hup
      refine ⟨⟨List.prefix_refl _, ?_⟩, ?_, ?_⟩
      · intro n d hd
        by_cases hn : n = ⟨scope, ident.node⟩
        · subst hn
          obtain rfl := Option.some.inj (hold.symm.trans hd)
          refine ⟨_, Function.update_self .., hkind.symm, fun heval => ?_⟩
          rw [hstub] at heval
          cases heval
        · exact ⟨d, (Function.update_of_ne hn ..).trans hd, rfl, id⟩
      · intro d hd
        obtain rfl := Option.some.inj hd
        exact hup
      · exact ⟨_, Function.update_self .., rfl, rfl⟩
    · simp only [hup] at h
      cases h

/-! ### Runs of checked steps -/

theorem bind_ok {α β : Type} {x : Checked α} {f : α → Checked β} {b : β} :
    (x >>= f).run = some (.ok b) ↔ ∃ a, x.run = some (.ok a) ∧ (f a).run = some (.ok b) := by
  constructor
  · intro h
    cases hx : x.run with
    | none =>
      rw [ExceptT.run_bind, hx] at h
      cases h
    | some r =>
      rw [ExceptT.run_bind, hx] at h
      cases r with
      | error e => cases h
      | ok a => exact ⟨a, rfl, h⟩
  · rintro ⟨a, hx, hf⟩
    rw [ExceptT.run_bind, hx]
    exact hf

theorem steps_of_foldlM {σ α : Type} {f : σ → α → Checked σ} {as : List α} {s s' : σ}
    (h : (as.foldlM f s).run = some (.ok s')) :
    Steps (fun s a s' => (f s a).run = some (.ok s')) s as s' := by
  induction as generalizing s with
  | nil =>
    cases h
    exact .nil _
  | cons a as ih =>
    rw [List.foldlM_cons] at h
    obtain ⟨s₁, hstep, hrest⟩ := bind_ok.mp h
    exact .cons hstep (ih hrest)

theorem grows_of_steps {α : Type} {f : NameGraph → α → Checked NameGraph} {as : List α}
    (hf : ∀ g a g', (f g a).run = some (.ok g') → Grows g g')
    (h : (as.foldlM f g).run = some (.ok g')) : Grows g g' := by
  have hsteps := steps_of_foldlM h
  clear h
  induction hsteps with
  | nil s => exact .refl _
  | cons hstep _ ih => exact (hf _ _ _ hstep).trans ih

theorem taken_of_grows {n : ResolvedName} (h : Grows g g') (hn : (g.declarations n).isSome) :
    (g'.declarations n).isSome := by
  obtain ⟨d, hd⟩ := Option.isSome_iff_exists.mp hn
  obtain ⟨d', hd', -, -⟩ := h.declarations n d hd
  rw [hd']
  rfl

/-! ### Items of a module -/

/-- What `declare_modules` enters an item under. -/
def declaredName : Ast.Declaration u → Option Identifier
  | .record x | .enum x _ | .function x | .filterMap x | .const x => some x.node
  | _ => none

/-- A new declaration is entered where there was none. -/
theorem insertNew_run {ident reported : Meta Identifier} {kind : DeclarationKind} {evaluated : Bool}
    (h : (orDeclaredTwice reported
      (g.insertDeclaration scope ident kind evaluated fun _ => false)).run = some (.ok g')) :
    Grows g g' ∧ g.declarations ⟨scope, ident.node⟩ = none ∧
      (g'.declarations ⟨scope, ident.node⟩).isSome := by
  obtain ⟨hgrows, hold, d, hd, -, -⟩ := insertDeclaration_run (fun d hd => absurd hd Bool.false_ne_true) h
  refine ⟨hgrows, ?_, ?_⟩
  · rw [Option.eq_none_iff_forall_not_mem]
    intro d hd
    exact absurd (hold d hd) Bool.false_ne_true
  · rw [hd]
    rfl

theorem declareItem_run {d : Ast.Declaration u} (h : (declareItem scope g d).run = some (.ok g')) :
    Grows g g' ∧ ∀ name, declaredName d = some name →
      g.declarations ⟨scope, name⟩ = none ∧ (g'.declarations ⟨scope, name⟩).isSome := by
  have hstub : ∀ {g₁ : NameGraph} {x : Ast.ItemIdent u} {kind}, Grows g g₁ →
      g₁.declarations = g.declarations →
      (insertStub scope x.toMeta kind g₁).run = some (.ok g') →
      Grows g g' ∧ ∀ name, some x.node = some name →
        g.declarations ⟨scope, name⟩ = none ∧ (g'.declarations ⟨scope, name⟩).isSome := by
    intro g₁ x kind hgrows hsame hinsert
    obtain ⟨hgrows', hnew, hentered⟩ := insertNew_run hinsert
    refine ⟨hgrows.trans hgrows', ?_⟩
    rintro name ⟨⟩
    rw [← hsame]
    exact ⟨hnew, hentered⟩
  cases d with
  | record x => exact hstub (grows_wrap g scope _) rfl h
  | enum x variants =>
    obtain ⟨g₁, hinsert, hvariants⟩ := bind_ok.mp h
    obtain ⟨hgrows, hnew, hentered⟩ := insertNew_run hinsert
    have hmore : Grows g₁ g' := by
      refine grows_of_steps (fun g v g' hstep => ?_) hvariants
      exact (insertNew_run hstep).1
    refine ⟨((grows_wrap g scope _).trans hgrows).trans hmore, ?_⟩
    rintro name ⟨⟩
    exact ⟨hnew, taken_of_grows hmore hentered⟩
  | function x => exact hstub (.refl g) rfl h
  | filterMap x => exact hstub (.refl g) rfl h
  | const x => exact hstub (.refl g) rfl h
  | «import» =>
    cases h
    exact ⟨.refl g, fun name hname => nomatch hname⟩
  | test x =>
    cases h
    exact ⟨.refl g, fun name hname => nomatch hname⟩

/-- What is declared in a module has different names. -/
theorem declareItems_run {ds : List (Ast.Declaration u)}
    (h : (ds.foldlM (declareItem scope) g).run = some (.ok g')) :
    Grows g g' ∧ (ds.filterMap declaredName).Nodup := by
  have hsteps := steps_of_foldlM h
  refine ⟨grows_of_steps (fun g d g' hstep => (declareItem_run hstep).1) h, ?_⟩
  refine (hsteps.fresh (fun g name => (g.declarations ⟨scope, name⟩).isSome) ?_ ?_).1
  · intro g d g' name hstep hname
    exact taken_of_grows (declareItem_run hstep).1 hname
  · intro g d g' name hstep hname
    obtain ⟨hnew, hentered⟩ := (declareItem_run hstep).2 name hname
    refine ⟨?_, hentered⟩
    rw [hnew]
    exact Bool.false_ne_true

theorem insertFunction_run {ident : Meta Identifier}
    (h : (insertFunction scope ident g).run = some (.ok g')) :
    Grows g g' ∧
      (∀ d, g.declarations ⟨scope, ident.node⟩ = some d → d.kind = .function ∧ d.evaluated = false) ∧
      ∃ d, g'.declarations ⟨scope, ident.node⟩ = some d ∧ d.kind = .function ∧
        d.evaluated = true := by
  have hup : ∀ d : NamedDeclaration, (d.kind = .function && !d.evaluated) = true →
      d.kind = .function ∧ d.evaluated = false := by
    intro d hd
    rw [Bool.and_eq_true, decide_eq_true_eq, Bool.not_eq_true'] at hd
    exact hd
  obtain ⟨hgrows, hold, hnew⟩ := insertDeclaration_run hup h
  exact ⟨hgrows, fun d hd => hup d (hold d hd), hnew⟩

theorem declareFunction_grows {d : Ast.Declaration u}
    (h : (declareFunction scope g d).run = some (.ok g')) : Grows g g' := by
  cases d with
  | function x => exact (insertFunction_run h).1
  | filterMap x => exact (insertFunction_run h).1
  | const x =>
    have hup : ∀ d : NamedDeclaration, (d.kind = .value .constant && !d.evaluated) = true →
        d.kind = .value .constant ∧ d.evaluated = false := by
      intro d hd
      rw [Bool.and_eq_true, decide_eq_true_eq, Bool.not_eq_true'] at hd
      exact hd
    exact (insertDeclaration_run hup h).1
  | record x => cases h; exact .refl g
  | enum x variants => cases h; exact .refl g
  | «import» => cases h; exact .refl g
  | test x => cases h; exact .refl g

def testNameOf : Ast.Declaration u → Option Identifier
  | .test x => some (testName x.toMeta).node
  | _ => none

variable {rest : OtherPasses u}

theorem checkItem_grows {d : Ast.Declaration u}
    (h : (checkItem rest scope g d).run = some (.ok g')) : Grows g g' := by
  cases d with
  | test x =>
    obtain ⟨g₁, hinsert, hbody⟩ := bind_ok.mp h
    exact (insertFunction_run hinsert).1.trans (rest.body_grows _ _ _ _ hbody)
  | function x => exact rest.body_grows _ _ _ _ h
  | filterMap x => exact rest.body_grows _ _ _ _ h
  | const x => exact rest.body_grows _ _ _ _ h
  | record x => cases h; exact .refl g
  | enum x variants => cases h; exact .refl g
  | «import» => cases h; exact .refl g

/-- The tests of a module have different names. -/
theorem checkItems_run {ds : List (Ast.Declaration u)}
    (h : (ds.foldlM (checkItem rest scope) g).run = some (.ok g')) :
    (ds.filterMap testNameOf).Nodup := by
  have hsteps := steps_of_foldlM h
  refine (hsteps.fresh (fun g name => ∃ d, g.declarations ⟨scope, name⟩ = some d ∧
    (d.kind = .function → d.evaluated = true)) ?_ ?_).1
  · rintro g d g' name hstep ⟨old, hold, heval⟩
    obtain ⟨new, hnew, hkind, hkeep⟩ := (checkItem_grows hstep).declarations _ _ hold
    exact ⟨new, hnew, fun h => hkeep (heval (hkind.symm.trans h))⟩
  · intro g d g' name hstep hname
    cases d with
    | test x =>
      obtain rfl := Option.some.inj hname
      obtain ⟨g₁, hinsert, hbody⟩ := bind_ok.mp hstep
      obtain ⟨-, hold, new, hnew, -, heval⟩ := insertFunction_run hinsert
      obtain ⟨later, hlater, -, hkeep⟩ := (rest.body_grows _ _ _ _ hbody).declarations _ _ hnew
      refine ⟨?_, later, hlater, fun _ => hkeep heval⟩
      rintro ⟨old, hdecl, hdone⟩
      obtain ⟨hkind, hstub⟩ := hold old hdecl
      rw [hdone hkind] at hstub
      cases hstub
    | _ => cases hname

/-! ### Modules -/

/-- The scopes of the modules that are declared so far: each one is a module scope below the
root, which knows the scope of the module around it, and that one comes earlier. -/
structure Placed (g : NameGraph) (scopes : List ScopeRef) (modules : List (Module u)) : Prop where
  length : scopes.length = modules.length
  lt : modules.length < g.scopes.length
  scope : ∀ (i : ℕ) (m : Module u), modules[i]? = some m →
    ∃ (s : ScopeRef) (parent : Option ScopeRef), scopes[i]? = some s ∧
    g.scopes[s]? = some ⟨.module ⟨⟨parent.getD ScopeRef.GLOBAL, m.ident.node⟩, parent⟩,
      some ScopeRef.GLOBAL⟩ ∧
    (parentModule scopes m.parent).run = some (.ok parent) ∧ ∀ p, m.parent = some p → p < i

theorem Placed.grows {modules : List (Module u)} (h : Placed g scopes modules)
    (hgrows : Grows g g') : Placed g' scopes modules := by
  obtain ⟨more, hmore⟩ := hgrows.scopes
  have hlt := h.lt
  refine ⟨h.length, ?_, ?_⟩
  · rw [← hmore, List.length_append]
    omega
  · intro i m hm
    obtain ⟨s, parent, hs, hscope, hparent⟩ := h.scope i m hm
    exact ⟨s, parent, hs, hgrows.getElem? hscope, hparent⟩

theorem parentModule_append {parent : Option ℕ} {p : Option ScopeRef}
    (h : (parentModule scopes parent).run = some (.ok p)) (s : ScopeRef) :
    (parentModule (scopes ++ [s]) parent).run = some (.ok p) ∧
      ∀ i, parent = some i → i < scopes.length := by
  cases parent with
  | none => exact ⟨h, fun i hi => nomatch hi⟩
  | some i =>
    cases hget : scopes[i]? with
    | none =>
      simp only [parentModule, hget] at h
      cases h
    | some r =>
      obtain ⟨hlt, -⟩ := List.getElem?_eq_some_iff.mp hget
      have hget' : (scopes ++ [s])[i]? = some r := by
        rw [List.getElem?_append_left hlt, hget]
      simp only [parentModule, hget] at h
      simp only [parentModule, hget']
      refine ⟨h, ?_⟩
      rintro j ⟨⟩
      exact hlt

theorem declareModule_run {m : Module u} {scopes' : List ScopeRef}
    (h : (declareModule (g, scopes) m).run = some (.ok (g', scopes'))) :
    ∃ parent, (parentModule scopes m.parent).run = some (.ok parent) ∧
      scopes' = scopes ++ [g.scopes.length] ∧ Grows g g' ∧
      g'.scopes[g.scopes.length]? = some ⟨.module
        ⟨⟨parent.getD ScopeRef.GLOBAL, m.ident.node⟩, parent⟩, some ScopeRef.GLOBAL⟩ ∧
      g.declarations ⟨parent.getD ScopeRef.GLOBAL, m.ident.node⟩ = none ∧
      (g'.declarations ⟨parent.getD ScopeRef.GLOBAL, m.ident.node⟩).isSome ∧
      (m.ast.filterMap declaredName).Nodup := by
  obtain ⟨parent, hparent, h⟩ := bind_ok.mp h
  obtain ⟨g₁, hinsert, h⟩ := bind_ok.mp h
  obtain ⟨g₂, hitems, h⟩ := bind_ok.mp h
  cases h
  obtain ⟨hgrows₁, hnew, hentered⟩ := insertNew_run hinsert
  obtain ⟨hgrows₂, hnodup⟩ := declareItems_run hitems
  have hwrap := grows_wrap g ScopeRef.GLOBAL
    (.module ⟨⟨parent.getD ScopeRef.GLOBAL, m.ident.node⟩, parent⟩)
  have hgrows := hgrows₁.trans hgrows₂
  exact ⟨parent, hparent, rfl, hwrap.trans hgrows,
    hgrows.getElem? (List.getElem?_concat_length ..), hnew, taken_of_grows hgrows₂ hentered, hnodup⟩

theorem Placed.module {modules : List (Module u)} {m : Module u} {scopes' : List ScopeRef}
    (hplaced : Placed g scopes modules)
    (h : (declareModule (g, scopes) m).run = some (.ok (g', scopes'))) :
    Placed g' scopes' (modules ++ [m]) := by
  obtain ⟨parent, hparent, rfl, hgrows, hscope, -, -, -⟩ := declareModule_run h
  have hold := hplaced.grows hgrows
  have hlength := hplaced.length
  have hlt := hplaced.lt
  obtain ⟨hnew, -⟩ := List.getElem?_eq_some_iff.mp hscope
  refine ⟨?_, ?_, ?_⟩
  · rw [List.length_append, List.length_append, hlength]
    rfl
  · rw [List.length_append, List.length_singleton]
    omega
  · intro i m' hm'
    rcases getElem?_concat_cases hm' with hm' | ⟨rfl, rfl⟩
    · obtain ⟨s, p, hs, hscope, hp, hless⟩ := hold.scope i m' hm'
      obtain ⟨hlts, -⟩ := List.getElem?_eq_some_iff.mp hs
      refine ⟨s, p, ?_, hscope, (parentModule_append hp _).1, hless⟩
      rw [List.getElem?_append_left hlts]
      exact hs
    · obtain ⟨hparent', hless⟩ := parentModule_append hparent g.scopes.length
      refine ⟨g.scopes.length, parent, ?_, hscope, hparent', ?_⟩
      · rw [← hlength, List.getElem?_concat_length]
      · rw [← hlength]
        exact hless

/-- Modules in the same module have different names. -/
theorem modules_distinct {g₀ : NameGraph} {modules : List (Module u)}
    (h : (modules.foldlM declareModule (g₀, [])).run = some (.ok (g, scopes))) :
    (modules.filterMap fun m => some (m.parent, m.ident.node)).Nodup := by
  refine ((steps_of_foldlM h).fresh (fun state name => ∃ parent,
    (parentModule state.2 name.1).run = some (.ok parent) ∧
    (state.1.declarations ⟨parent.getD ScopeRef.GLOBAL, name.2⟩).isSome) ?_ ?_).1
  · rintro ⟨g, scopes⟩ m ⟨g', scopes'⟩ ⟨p, name⟩ hstep ⟨parent, hparent, hname⟩
    obtain ⟨-, -, rfl, hgrows, -⟩ := declareModule_run hstep
    exact ⟨parent, (parentModule_append hparent _).1, taken_of_grows hgrows hname⟩
  · rintro ⟨g, scopes⟩ m ⟨g', scopes'⟩ ⟨p, name⟩ hstep hkey
    cases hkey
    obtain ⟨parent, hparent, rfl, -, -, hnew, hentered, -⟩ := declareModule_run hstep
    refine ⟨?_, parent, (parentModule_append hparent _).1, hentered⟩
    rintro ⟨parent', hparent', hname⟩
    cases hparent.symm.trans hparent'
    rw [hnew] at hname
    exact Bool.false_ne_true hname

theorem declareModules_run {g₀ : NameGraph} {modules : List (Module u)}
    (h : (modules.foldlM declareModule (g₀, [])).run = some (.ok (g, scopes))) :
    Placed g scopes modules ∧ ∀ m ∈ modules, (m.ast.filterMap declaredName).Nodup := by
  have hrun : ∀ {state state' : NameGraph × List ScopeRef} {more done : List (Module u)},
      Steps (fun s m s' => (declareModule s m).run = some (.ok s')) state more state' →
      Placed state.1 state.2 done → Placed state'.1 state'.2 (done ++ more) ∧
        ∀ m ∈ more, (m.ast.filterMap declaredName).Nodup := by
    intro state state' more done hsteps
    induction hsteps generalizing done with
    | nil s =>
      intro hplaced
      rw [List.append_nil]
      exact ⟨hplaced, fun m hm => absurd hm List.not_mem_nil⟩
    | @cons s s₁ s₂ m more hstep _ ih =>
      intro hplaced
      obtain ⟨-, -, -, -, -, -, -, hnodup⟩ := declareModule_run hstep
      obtain ⟨hplaced₂, hall⟩ := ih (hplaced.module hstep)
      rw [List.append_assoc] at hplaced₂
      exact ⟨hplaced₂, List.forall_mem_cons.mpr ⟨hnodup, hall⟩⟩
  obtain ⟨hlt, -⟩ := List.getElem?_eq_some_iff.mp g₀.root
  have hstart : Placed g₀ [] ([] : List (Module u)) := ⟨rfl, hlt, fun i m hm => nomatch hm⟩
  exact hrun (steps_of_foldlM h) hstart

theorem overDeclarations_grows
    {f : ScopeRef → NameGraph → Ast.Declaration u → Checked NameGraph}
    (hf : ∀ scope g d g', (f scope g d).run = some (.ok g') → Grows g g')
    {modules : List (ScopeRef × Module u)}
    (h : (overDeclarations f modules g).run = some (.ok g')) : Grows g g' :=
  grows_of_steps (fun _ m _ hstep => grows_of_steps (hf m.1) hstep) h

/-- What the type checker has made sure of when it accepts a tree. -/
theorem checkModuleTree_run {g₀ : NameGraph} {tree : ModuleTree u}
    (h : (checkModuleTree rest g₀ tree).run = some (.ok (g, scopes))) :
    Placed g scopes tree.modules ∧
      (tree.modules.filterMap fun m => some (m.parent, m.ident.node)).Nodup ∧
      ∀ m ∈ tree.modules,
        (m.ast.filterMap declaredName).Nodup ∧ (m.ast.filterMap testNameOf).Nodup := by
  obtain ⟨⟨g₁, scopes₁⟩, hmodules, h⟩ := bind_ok.mp h
  obtain ⟨g₂, himports, h⟩ := bind_ok.mp h
  obtain ⟨g₃, hfunctions, h⟩ := bind_ok.mp h
  obtain ⟨g₄, hbodies, h⟩ := bind_ok.mp h
  cases h
  obtain ⟨hplaced, hdeclared⟩ := declareModules_run hmodules
  have hgrows₂ := rest.importsAndTypes_grows _ _ himports
  have hgrows₃ := overDeclarations_grows (fun _ _ _ _ hstep => declareFunction_grows hstep) hfunctions
  have hgrows₄ := overDeclarations_grows (fun _ _ _ _ hstep => checkItem_grows hstep) hbodies
  refine ⟨hplaced.grows (hgrows₂.trans (hgrows₃.trans hgrows₄)), modules_distinct hmodules, ?_⟩
  intro m hm
  refine ⟨hdeclared m hm, ?_⟩
  obtain ⟨i, hi, rfl⟩ := List.getElem_of_mem hm
  have hscope : i < scopes.length := by
    rw [hplaced.length]
    exact hi
  have hmem : (scopes[i], tree.modules[i]) ∈ scopes.zip tree.modules := by
    refine List.mem_of_getElem? (i := i) ?_
    rw [List.getElem?_zip_eq_some]
    exact ⟨List.getElem?_eq_getElem hscope, List.getElem?_eq_getElem hi⟩
  obtain ⟨s₁, s₂, hstep⟩ := (steps_of_foldlM hbodies).exists_step hmem
  exact checkItems_run hstep

/-! ### The paths of modules -/

/-- The names of the modules from the outermost one to module number `i`; a module comes after
the one around it. -/
def pathFrom (tree : ModuleTree u) : ℕ → ℕ → List Text
  | 0, _ => []
  | fuel + 1, i =>
    match tree.modules[i]? with
    | none => []
    | some m => m.parent.elim [] (pathFrom tree fuel) ++ [m.ident.node.toList]

def modulePath (tree : ModuleTree u) (i : ℕ) : List Text := pathFrom tree (i + 1) i

/-- The path of a module with all names split at their dots. -/
def dottedPath (tree : ModuleTree u) (i : ℕ) : List Text := pieces '.' (modulePath tree i)

variable {tree : ModuleTree u}

theorem modulePath_ne_nil {i : ℕ} {m : Module u} (hm : tree.modules[i]? = some m) :
    modulePath tree i ≠ [] := by
  unfold modulePath pathFrom
  rw [hm]
  exact List.append_ne_nil_of_right_ne_nil _ (List.cons_ne_nil _ _)

theorem moduleIdents_eq (hplaced : Placed g scopes tree.modules) (i : ℕ) :
    ∀ {m : Module u} {s : ScopeRef} {ms : ModuleScope} {p : Option ScopeRef},
      tree.modules[i]? = some m → scopes[i]? = some s → g.scopes[s]? = some ⟨.module ms, p⟩ →
      ∀ fuel fuel', i < fuel → i < fuel' →
        g.moduleIdents fuel ms = some (pathFrom tree fuel' i).reverse := by
  induction i using Nat.strong_induction_on with
  | _ i ih =>
    intro m s ms p hm hs hscope fuel fuel' hfuel hfuel'
    obtain ⟨k, rfl⟩ : ∃ k, fuel = k + 1 := ⟨fuel - 1, by omega⟩
    obtain ⟨k', rfl⟩ : ∃ k', fuel' = k' + 1 := ⟨fuel' - 1, by omega⟩
    obtain ⟨s', parent, hs', hscope', hparent, hless⟩ := hplaced.scope i m hm
    obtain rfl := Option.some.inj (hs.symm.trans hs')
    cases hscope.symm.trans hscope'
    have hpath : pathFrom tree (k' + 1) i =
        m.parent.elim [] (pathFrom tree k') ++ [m.ident.node.toList] := by
      rw [pathFrom, hm]
    rw [hpath]
    cases hmp : m.parent with
    | none =>
      rw [hmp] at hparent
      cases hparent
      rfl
    | some q =>
      have hq := hless q hmp
      obtain ⟨hilt, -⟩ := List.getElem?_eq_some_iff.mp hm
      have hqm := List.getElem?_eq_getElem (hq.trans hilt)
      obtain ⟨r, parent', hr, hscope₁, -, -⟩ := hplaced.scope q _ hqm
      rw [hmp] at hparent
      simp only [parentModule, hr] at hparent
      cases hparent
      have hrec := ih q hq hqm hr hscope₁ k k' (by omega) (by omega)
      simp only [NameGraph.moduleIdents, hscope₁, Option.map_some, hrec, Option.elim_some,
        List.reverse_append, List.reverse_singleton, List.singleton_append]

theorem printScope_module {s : ScopeRef} {ms : ModuleScope} {name : Text}
    (hscope : g.scopes[s]? = some ⟨.module ms, some ScopeRef.GLOBAL⟩)
    (hname : g.moduleName ms = some name) : g.printScope s = some name := by
  have hroot := g.root
  obtain ⟨hlt, -⟩ := List.getElem?_eq_some_iff.mp hroot
  obtain ⟨k, hk⟩ : ∃ k, g.scopes.length = k + 1 := ⟨g.scopes.length - 1, by omega⟩
  have hzero : g.scopeIdents (k + 1) ScopeRef.GLOBAL = some [] := by
    simp only [NameGraph.scopeIdents, ScopeRef.GLOBAL, hroot, bind, Option.bind,
      NameGraph.printScopeType]
    rfl
  have hidents : g.scopeIdents (g.scopes.length + 1) s = some [name] := by
    rw [hk, NameGraph.scopeIdents]
    simp only [hscope, bind, Option.bind, NameGraph.printScopeType, hname, Option.map_some, hzero]
    rfl
  rw [NameGraph.printScope, hidents, Option.map_some, List.reverse_singleton,
    List.intercalate_singleton]

/-- The full name of an item. -/
theorem itemFullName_eq (hplaced : Placed g scopes tree.modules) {item : ℕ × ℕ}
    {name : Identifier} (hitem : itemAt tree item = some name) :
    itemFullName g scopes tree item =
      some (joined '.' (modulePath tree item.1) name.toList) := by
  have hmodule : ∃ m, tree.modules[item.1]? = some m := by
    cases hm : tree.modules[item.1]? with
    | none => simp [itemAt, hm] at hitem
    | some m => exact ⟨m, rfl⟩
  obtain ⟨m, hm⟩ := hmodule
  obtain ⟨s, parent, hs, hscope, -, -⟩ := hplaced.scope item.1 m hm
  obtain ⟨hilt, -⟩ := List.getElem?_eq_some_iff.mp hm
  have hidents := moduleIdents_eq hplaced item.1 hm hs hscope g.scopes.length (item.1 + 1)
    (hilt.trans hplaced.lt) (Nat.lt_succ_self _)
  have hname : g.moduleName ⟨⟨parent.getD ScopeRef.GLOBAL, m.ident.node⟩, parent⟩ =
      some (['.'].intercalate (modulePath tree item.1)) := by
    rw [NameGraph.moduleName, hidents, Option.map_some, List.reverse_reverse]
    rfl
  have hprint := printScope_module hscope hname
  simp only [itemFullName, hitem, hs, NameGraph.fullName, hprint, bind, Option.bind]
  rfl

/-! ### Different names -/

theorem not_mem_testName {c : Char} {x : Meta Identifier} (h : c ∉ "test#".toList)
    (hx : c ∉ x.node.toList) : c ∉ (testName x).node.toList := by
  rw [testName, String.toList_append, List.mem_append]
  rintro (hmem | hmem)
  · exact h hmem
  · exact hx hmem

/-- There are no dots in the names of items. -/
theorem dot_not_mem_itemName (hu : u.Documented) {d : Ast.Declaration u} {name : Identifier}
    (h : itemName d = some name) : '.' ∉ name.toList := by
  have hident : ∀ x : Ast.ItemIdent u, '.' ∉ x.node.toList := fun x =>
    x.lexed.not_mem hu rfl (by decide)
  cases d with
  | test x =>
    cases h
    exact not_mem_testName (by decide) (hident x)
  | function x => cases h; exact hident x
  | filterMap x => cases h; exact hident x
  | const x => cases h; exact hident x
  | record x => cases h
  | enum x variants => cases h
  | «import» => cases h

/-- An item is a test, or something that `declare_modules` enters. -/
theorem itemName_cases (hu : u.Documented) {d : Ast.Declaration u} {name : Identifier}
    (h : itemName d = some name) :
    (testNameOf d = some name ∧ '#' ∈ name.toList) ∨
      (declaredName d = some name ∧ '#' ∉ name.toList) := by
  have hident : ∀ x : Ast.ItemIdent u, '#' ∉ x.node.toList := fun x =>
    x.lexed.not_mem hu rfl (by decide)
  cases d with
  | test x =>
    cases h
    refine .inl ⟨rfl, ?_⟩
    rw [testName, String.toList_append]
    exact List.mem_append_left _ (by decide)
  | function x => cases h; exact .inr ⟨rfl, hident x⟩
  | filterMap x => cases h; exact .inr ⟨rfl, hident x⟩
  | const x => cases h; exact .inr ⟨rfl, hident x⟩
  | record x => cases h
  | enum x variants => cases h
  | «import» => cases h

/-- In a module, an item is found by its name. -/
theorem eq_of_itemName_eq (hu : u.Documented) {ds : List (Ast.Declaration u)}
    (hdeclared : (ds.filterMap declaredName).Nodup) (htests : (ds.filterMap testNameOf).Nodup)
    {i j : ℕ} {d d' : Ast.Declaration u} {name : Identifier} (hi : ds[i]? = some d)
    (hj : ds[j]? = some d') (hd : itemName d = some name) (hd' : itemName d' = some name) :
    i = j := by
  rcases itemName_cases hu hd with ⟨htest, hmem⟩ | ⟨hdecl, hnot⟩
  · rcases itemName_cases hu hd' with ⟨htest', -⟩ | ⟨-, hnot'⟩
    · exact eq_of_key_eq htests hi hj htest htest'
    · exact absurd hmem hnot'
  · rcases itemName_cases hu hd' with ⟨-, hmem'⟩ | ⟨hdecl', -⟩
    · exact absurd hmem' hnot
    · exact eq_of_key_eq hdeclared hi hj hdecl hdecl'

theorem dot_not_mem_generatedName (kind : GeneratedKind) (typeId : ℕ) :
    '.' ∉ generatedName kind typeId := by
  have hdigits : '.' ∉ (toString typeId).toList := by
    intro hmem
    have hrepr : (toString typeId).toList = Nat.toDigits 10 typeId := by
      show (Nat.repr typeId).toList = _
      rw [Nat.repr_eq_ofList_toDigits, String.toList_ofList]
    rw [hrepr] at hmem
    have hdigit := Nat.isDigit_of_mem_toDigits (by decide) (by decide) hmem
    revert hdigit
    decide
  have hword : '.' ∉ kind.word.toList := by
    cases kind <;> decide
  have hname : generatedName kind typeId =
      "::generated::".toList ++ (kind.word.toList ++ ("_".toList ++ (toString typeId).toList)) := by
    simp only [generatedName, String.toList_append, List.append_assoc]
    rfl
  rw [hname]
  simp only [List.mem_append, hword, hdigits, or_false, false_or]
  decide

/-- The items of a tree have names in the JIT module, different ones, and none is the name of
a generated function. -/
structure NamesDistinct (g : NameGraph) (scopes : List ScopeRef) (tree : ModuleTree u) : Prop where
  named : ∀ item, (itemAt tree item).isSome → (itemFullName g scopes tree item).isSome
  distinct : ∀ item item' name, itemFullName g scopes tree item = some name →
    itemFullName g scopes tree item' = some name → item = item'
  notGenerated : ∀ item kind typeId,
    itemFullName g scopes tree item ≠ some (generatedName kind typeId)

theorem itemAt_of_fullName {item : ℕ × ℕ} {name : Text}
    (h : itemFullName g scopes tree item = some name) : ∃ ident, itemAt tree item = some ident := by
  cases hitem : itemAt tree item with
  | none => simp [itemFullName, hitem] at h
  | some ident => exact ⟨ident, rfl⟩

theorem itemAt_eq_some {item : ℕ × ℕ} {name : Identifier} (h : itemAt tree item = some name) :
    ∃ m d, tree.modules[item.1]? = some m ∧ m.ast[item.2]? = some d ∧ itemName d = some name := by
  cases hm : tree.modules[item.1]? with
  | none => simp [itemAt, hm] at h
  | some m =>
    cases hd : m.ast[item.2]? with
    | none => simp [itemAt, hm, hd] at h
    | some d => exact ⟨m, d, rfl, hd, by simpa [itemAt, hm, hd] using h⟩

/-- Items have different names when no two modules of the same dotted path declare items of
the same name. -/
theorem namesDistinct_of_paths (hu : u.Documented) {g₀ : NameGraph}
    (h : (checkModuleTree rest g₀ tree).run = some (.ok (g, scopes)))
    (hpaths : ∀ item item' name, itemAt tree item = some name → itemAt tree item' = some name →
      item.1 ≠ item'.1 → dottedPath tree item.1 ≠ dottedPath tree item'.1) :
    NamesDistinct g scopes tree := by
  obtain ⟨hplaced, -, hnodup⟩ := checkModuleTree_run h
  refine ⟨?_, ?_, ?_⟩
  · intro item hsome
    obtain ⟨name, hitem⟩ := Option.isSome_iff_exists.mp hsome
    rw [itemFullName_eq hplaced hitem]
    rfl
  · intro item item' name hfull hfull'
    obtain ⟨ident, hitem⟩ := itemAt_of_fullName hfull
    obtain ⟨ident', hitem'⟩ := itemAt_of_fullName hfull'
    obtain ⟨m, d, hm, hmd, hd⟩ := itemAt_eq_some hitem
    obtain ⟨m', d', hm', hmd', hd'⟩ := itemAt_eq_some hitem'
    rw [itemFullName_eq hplaced hitem] at hfull
    rw [itemFullName_eq hplaced hitem'] at hfull'
    have hsame := Option.some.inj (hfull.trans hfull'.symm)
    obtain ⟨hpath, hname⟩ := (joined_eq_iff (modulePath_ne_nil hm) (modulePath_ne_nil hm')
      (dot_not_mem_itemName hu hd) (dot_not_mem_itemName hu hd')).mp hsame
    have hident : ident = ident' := String.toList_inj.mp hname
    subst hident
    by_cases hmod : item.1 = item'.1
    · rw [← hmod, hm] at hm'
      obtain rfl := Option.some.inj hm'
      obtain ⟨hdeclared, htests⟩ := hnodup m (List.mem_of_getElem? hm)
      exact Prod.ext hmod (eq_of_itemName_eq hu hdeclared htests hmd hmd' hd hd')
    · exact absurd hpath (hpaths item item' ident hitem hitem' hmod)
  · intro item kind typeId hfull
    obtain ⟨ident, hitem⟩ := itemAt_of_fullName hfull
    rw [itemFullName_eq hplaced hitem] at hfull
    have hdot : '.' ∈ generatedName kind typeId := by
      rw [← Option.some.inj hfull]
      exact mem_joined
    exact dot_not_mem_generatedName kind typeId hdot

/-- Different modules have different paths. -/
theorem modulePath_injective (hplaced : Placed g scopes tree.modules)
    (hnodup : (tree.modules.filterMap fun m => some (m.parent, m.ident.node)).Nodup) (i : ℕ) :
    ∀ {j : ℕ} {m m' : Module u}, tree.modules[i]? = some m → tree.modules[j]? = some m' →
      modulePath tree i = modulePath tree j → i = j := by
  have hpath : ∀ {k : ℕ} {m : Module u}, tree.modules[k]? = some m →
      modulePath tree k = m.parent.elim [] (modulePath tree) ++ [m.ident.node.toList] ∧
        ∀ p, m.parent = some p → p < k ∧ ∃ m', tree.modules[p]? = some m' := by
    intro k m hm
    obtain ⟨s, parent, -, -, -, hless⟩ := hplaced.scope k m hm
    obtain ⟨hlt, -⟩ := List.getElem?_eq_some_iff.mp hm
    have hthere : ∀ p, m.parent = some p → p < k ∧ ∃ m', tree.modules[p]? = some m' :=
      fun p hp => ⟨hless p hp, _, List.getElem?_eq_getElem ((hless p hp).trans hlt)⟩
    refine ⟨?_, hthere⟩
    have hunfold : modulePath tree k =
        m.parent.elim [] (pathFrom tree k) ++ [m.ident.node.toList] := by
      rw [modulePath, pathFrom, hm]
    rw [hunfold]
    cases hp : m.parent with
    | none => rfl
    | some p =>
      obtain ⟨hpk, m', hm'⟩ := hthere p hp
      obtain ⟨s', parent', hs', hscope', -, -⟩ := hplaced.scope p m' hm'
      have hlong := moduleIdents_eq hplaced p hm' hs' hscope' (p + 1) k (Nat.lt_succ_self p) hpk
      have hshort := moduleIdents_eq hplaced p hm' hs' hscope' (p + 1) (p + 1)
        (Nat.lt_succ_self p) (Nat.lt_succ_self p)
      have hsame := List.reverse_injective (Option.some.inj (hlong.symm.trans hshort))
      exact congrArg (fun path => path ++ [m.ident.node.toList]) hsame
  induction i using Nat.strong_induction_on with
  | _ i ih =>
    intro j m m' hm hm' hsame
    obtain ⟨hi, hup⟩ := hpath hm
    obtain ⟨hj, hup'⟩ := hpath hm'
    rw [hi, hj] at hsame
    obtain ⟨haround, hlast⟩ := List.append_inj' hsame rfl
    have hident := String.toList_inj.mp (List.cons.inj hlast).1
    have hparent : m.parent = m'.parent := by
      cases hp : m.parent with
      | none =>
        cases hp' : m'.parent with
        | none => rfl
        | some p' =>
          obtain ⟨-, q, hq⟩ := hup' p' hp'
          rw [hp, hp'] at haround
          exact absurd haround.symm (modulePath_ne_nil hq)
      | some p =>
        obtain ⟨hless, q, hq⟩ := hup p hp
        cases hp' : m'.parent with
        | none =>
          rw [hp, hp'] at haround
          exact absurd haround (modulePath_ne_nil hq)
        | some p' =>
          obtain ⟨-, q', hq'⟩ := hup' p' hp'
          rw [hp, hp'] at haround
          rw [ih p hless hq hq' haround]
    exact eq_of_key_eq hnodup hm hm' (congrArg some (Prod.ext hparent hident)) rfl

theorem dotless_pathFrom (hdots : ∀ m ∈ tree.modules, '.' ∉ m.ident.node.toList) (fuel i : ℕ) :
    ∀ p ∈ pathFrom tree fuel i, '.' ∉ p := by
  induction fuel generalizing i with
  | zero => exact fun p hp => absurd hp List.not_mem_nil
  | succ fuel ih =>
    unfold pathFrom
    cases hm : tree.modules[i]? with
    | none => exact fun p hp => absurd hp List.not_mem_nil
    | some m =>
      intro p hp
      rcases List.mem_append.mp hp with hp | hp
      · cases hparent : m.parent with
        | none =>
          rw [hparent] at hp
          exact absurd hp List.not_mem_nil
        | some q =>
          rw [hparent] at hp
          exact ih q p hp
      · rw [List.mem_singleton.mp hp]
        exact hdots m (List.mem_of_getElem? hm)

/-- Where no module has a dot in its name, all items have different names. -/
theorem namesDistinct_of_dotless (hu : u.Documented) {g₀ : NameGraph}
    (h : (checkModuleTree rest g₀ tree).run = some (.ok (g, scopes)))
    (hdots : ∀ m ∈ tree.modules, '.' ∉ m.ident.node.toList) : NamesDistinct g scopes tree := by
  obtain ⟨hplaced, hnodup, -⟩ := checkModuleTree_run h
  refine namesDistinct_of_paths hu h ?_
  intro item item' name hitem hitem' hne hdotted
  obtain ⟨m, -, hm, -, -⟩ := itemAt_eq_some hitem
  obtain ⟨m', -, hm', -, -⟩ := itemAt_eq_some hitem'
  unfold dottedPath modulePath at hdotted
  rw [pieces_eq_self (dotless_pathFrom hdots _ _),
    pieces_eq_self (dotless_pathFrom hdots _ _)] at hdotted
  exact hne (modulePath_injective hplaced hnodup item.1 hm hm' hdotted)

/-- The names of items collide exactly when two modules, whose paths are the same once they
are split at all dots, declare items of the same name. -/
theorem namesDistinct_iff (u : Parser.Unicode) (hu : u.Documented) (rest : OtherPasses u)
    (g₀ g : NameGraph) (tree : ModuleTree u) (scopes : List ScopeRef)
    (h : (checkModuleTree rest g₀ tree).run = some (.ok (g, scopes))) :
    NamesDistinct g scopes tree ↔
      ∀ item item' name, itemAt tree item = some name → itemAt tree item' = some name →
        item.1 ≠ item'.1 → dottedPath tree item.1 ≠ dottedPath tree item'.1 := by
  obtain ⟨hplaced, -, -⟩ := checkModuleTree_run h
  refine ⟨?_, namesDistinct_of_paths hu h⟩
  intro hdistinct item item' name hitem hitem' hne hpath
  obtain ⟨m, d, hm, -, hd⟩ := itemAt_eq_some hitem
  obtain ⟨m', d', hm', -, -⟩ := itemAt_eq_some hitem'
  have hdot := dot_not_mem_itemName hu hd
  have hsame := (joined_eq_iff (modulePath_ne_nil hm) (modulePath_ne_nil hm') hdot hdot).mpr
    ⟨hpath, rfl⟩
  have hfull := itemFullName_eq hplaced hitem
  have hfull' := itemFullName_eq hplaced hitem'
  rw [← hsame] at hfull'
  exact hne (congrArg Prod.fst (hdistinct.distinct _ _ _ hfull hfull'))

end

/-! ### Two modules with the same dotted path -/

def noPasses (u : Parser.Unicode) : OtherPasses u where
  importsAndTypes g := pure g
  body _ g _ := pure g
  importsAndTypes_grows g g' h := by
    cases h
    exact .refl g
  body_grows _ _ g g' h := by
    cases h
    exact .refl g

def emptyGraph : NameGraph := ⟨fun _ => none, [⟨.root, none⟩], rfl⟩

theorem f_isIdentifier : Parser.IsIdentifier Parser.letters "f".toList := by decide

/-- A file with anything in it has one function, which is called `f`. -/
def parseF (i : ℕ) (contents : Text) :
    Except String (List (Ast.Declaration Parser.letters)) :=
  if contents = [] then .ok [] else .ok [.function ⟨⟨"f", i⟩, f_isIdentifier.isLexed⟩]

/-- The files `pkg.roto`, `a.b.roto`, `a/mod.roto` and `a/b.roto`. -/
def dottedFiles : FileSpec :=
  .directory ⟨"pkg", [], []⟩
    [.file ⟨"a.b", ['f'], []⟩, .directory ⟨"a", [], []⟩ [.file ⟨"b", ['f'], []⟩]]

def dottedTree : ModuleTree Parser.letters where
  modules :=
    [⟨⟨"pkg", 4⟩, [], none⟩,
      ⟨⟨"a.b", 5⟩, [.function ⟨⟨"f", 1⟩, f_isIdentifier.isLexed⟩], some 0⟩,
      ⟨⟨"a", 6⟩, [], some 0⟩,
      ⟨⟨"b", 7⟩, [.function ⟨⟨"f", 3⟩, f_isIdentifier.isLexed⟩], some 2⟩]

theorem dottedTree_files :
    ModuleTree.fromFiles parseF (fun i => i + 4) dottedFiles.files = some (.ok dottedTree) := rfl

theorem dotted_run : ∃ g scopes,
    (checkModuleTree (noPasses Parser.letters) emptyGraph dottedTree).run =
      some (.ok (g, scopes)) ∧
    itemFullName g scopes dottedTree (1, 0) = some "pkg.a.b.f".toList ∧
    itemFullName g scopes dottedTree (3, 0) = some "pkg.a.b.f".toList :=
  ⟨_, _, rfl, rfl, rfl⟩

theorem dottedTree_names_iff : ∃ g scopes,
    (checkModuleTree (noPasses Parser.letters) emptyGraph dottedTree).run =
      some (.ok (g, scopes)) ∧
    (NamesDistinct g scopes dottedTree ↔
      ∀ item item' name, itemAt dottedTree item = some name →
        itemAt dottedTree item' = some name → item.1 ≠ item'.1 →
          dottedPath dottedTree item.1 ≠ dottedPath dottedTree item'.1) := by
  obtain ⟨g, scopes, hrun, -, -⟩ := dotted_run
  exact ⟨g, scopes, hrun,
    namesDistinct_iff Parser.letters Parser.letters_documented _ _ _ _ _ hrun⟩

/-- The modules of these files are accepted, and the functions `f` of `a.b.roto` and of
`a/b.roto` have the same name. -/
theorem dotted_modules_collide :
    moduleNameOf ["pkg".toList, "a.b.roto".toList] = some "a.b" ∧
    moduleNameOf ["pkg".toList, "a".toList, "mod.roto".toList] = some "a" ∧
    moduleNameOf ["pkg".toList, "a".toList, "b.roto".toList] = some "b" ∧
    ModuleTree.fromFiles parseF (fun i => i + 4) dottedFiles.files = some (.ok dottedTree) ∧
    ∃ g scopes, (checkModuleTree (noPasses Parser.letters) emptyGraph dottedTree).run =
      some (.ok (g, scopes)) ∧ ¬ NamesDistinct g scopes dottedTree := by
  obtain ⟨g, scopes, hrun, hname, hname'⟩ := dotted_run
  refine ⟨by decide, by decide, by decide, dottedTree_files, g, scopes, hrun, ?_⟩
  intro hdistinct
  have hsame := hdistinct.distinct (1, 0) (3, 0) _ hname hname'
  revert hsame
  decide

end Roto.TypeChecker
