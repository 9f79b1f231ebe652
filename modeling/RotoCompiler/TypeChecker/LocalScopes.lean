import Mathlib.Logic.Relation
import RotoCompiler.TypeChecker.Imports

/-!
# Where local variables are found (typechecker/scope.rs)

The scopes in the body of an item are those of the function, of blocks, branches, loop bodies
and match arms. Locals are declared there only, and a path finds no local but one of a scope
around it.
-/

namespace Roto.TypeChecker
open Relation

def parentOf (scopes : List Scope) (i : ScopeRef) : Option ScopeRef :=
  (scopes[i]?).bind Scope.parent

/-- The first scope is the second one or around it. -/
def Encloses (scopes : List Scope) (outer inner : ScopeRef) : Prop :=
  ReflTransGen (fun i p => parentOf scopes i = some p) inner outer

theorem Encloses.refl {scopes : List Scope} (i : ScopeRef) : Encloses scopes i i :=
  ReflTransGen.refl

theorem Encloses.parent {scopes : List Scope} {a i p : ScopeRef} (h : Encloses scopes a p)
    (hp : parentOf scopes i = some p) : Encloses scopes a i :=
  .head hp h

theorem parentOf_append {scopes : List Scope} {s : Scope} {i p : ScopeRef}
    (h : parentOf scopes i = some p) : parentOf (scopes ++ [s]) i = some p := by
  unfold parentOf at h ⊢
  obtain ⟨t, ht, hp⟩ := Option.bind_eq_some_iff.mp h
  have hi : i < scopes.length := (List.getElem?_eq_some_iff.mp ht).1
  rw [List.getElem?_append_left hi, ht]
  exact hp

theorem parentOf_append_iff {scopes : List Scope} {s : Scope} {i p : ScopeRef} :
    parentOf (scopes ++ [s]) i = some p ↔
      parentOf scopes i = some p ∨ i = scopes.length ∧ s.parent = some p := by
  constructor
  · intro h
    obtain ⟨t, ht, hp⟩ := Option.bind_eq_some_iff.mp h
    rcases getElem?_concat_cases ht with ht | ⟨hi, rfl⟩
    · exact .inl (Option.bind_eq_some_iff.mpr ⟨t, ht, hp⟩)
    · exact .inr ⟨hi, hp⟩
  · rintro (h | ⟨rfl, h⟩)
    · exact parentOf_append h
    · unfold parentOf
      rw [List.getElem?_concat_length]
      exact h

theorem parentOf_modify (scopes : List Scope) (k i : ScopeRef)
    (imports : Identifier → Option (MetaId × ScopeRef)) :
    parentOf (scopes.modify k fun s => { s with imports := imports }) i = parentOf scopes i := by
  unfold parentOf
  rw [List.getElem?_modify]
  cases scopes[i]? with
  | none => rfl
  | some s => by_cases h : k = i <;> simp [h]

theorem Encloses.mono {scopes scopes' : List Scope} {a b : ScopeRef}
    (h : Encloses scopes a b)
    (hmono : ∀ i p, parentOf scopes i = some p → parentOf scopes' i = some p) :
    Encloses scopes' a b :=
  ReflTransGen.mono (fun i p => hmono i p) _ _ h

/-- A scope graph in which the scopes in bodies are known. A scope in a body has only scopes
in that body inside; a declaration is made in a scope that there is, a local in a body; what
is declared in a module or a type is not in a body; only what is declared is imported, and a
local only into scopes that its own scope is around. -/
structure LocalScopes extends ScopeGraph where
  body : ScopeRef → Bool
  bodyInside : ∀ i p, parentOf scopes i = some p → body p → body i
  present : ∀ n d, declarations n = some d → n.scope < scopes.length
  localInBody : ∀ n d, declarations n = some d → d.kind = .value .local →
    body n.scope ∧ d.scope = none
  scopeOutside : ∀ n d k, declarations n = some d → d.scope = some k →
    k < scopes.length ∧ body k = false
  imported : ∀ i s x m k, scopes[i]? = some s → s.imports x = some (m, k) →
    ∃ d, declarations ⟨k, x⟩ = some d ∧ (d.kind = .value .local → Encloses scopes k i)

namespace LocalScopes

variable (g : LocalScopes)

abbrev Around (outer inner : ScopeRef) : Prop := Encloses g.scopes outer inner

theorem body_of_around {a i : ScopeRef} (h : g.Around a i) (ha : g.body a) : g.body i := by
  induction h using ReflTransGen.head_induction_on with
  | refl => exact ha
  | head hp _ ih => exact g.bodyInside _ _ hp ih

/-- The scope of an item: a body in a scope that is not in one. -/
def ItemScope (r : ScopeRef) : Prop :=
  g.body r ∧ ∀ p, parentOf g.scopes r = some p → g.body p = false

def InItem (item scope : ScopeRef) : Prop := g.ItemScope item ∧ g.Around item scope

variable {g} in
/-- The scopes of a body around a scope are of the same item. -/
theorem InItem.of_around {item scope a : ScopeRef} (h : g.InItem item scope)
    (ha : g.Around a scope) (hbody : g.body a) : g.InItem item a := by
  refine ⟨h.1, ?_⟩
  have hunique : Relator.RightUnique fun i p => parentOf g.scopes i = some p := by
    intro i p q hp hq
    exact Option.some.inj (hp.symm.trans hq)
  rcases ReflTransGen.total_of_right_unique hunique ha h.2 with hup | hup
  · exact hup
  · rcases ReflTransGen.cases_head hup with heq | ⟨p, hp, hrest⟩
    · rw [heq]
      exact .refl a
    · have hbodyp : g.body p := g.body_of_around hrest hbody
      rw [h.1.2 p hp] at hbodyp
      cases hbodyp

/-! ### What lookup finds -/

/-- A declaration that is in the graph, and that is around the scope when it is a local. -/
def Visible (scope : ScopeRef) (ident : Identifier) (d : Declaration) : Prop :=
  d.name.ident = ident ∧ g.declarations d.name = some d ∧
    (d.kind = .value .local → g.Around d.name.scope scope)

variable {g}

theorem visible_of_declared {a scope : ScopeRef} {ident : Identifier} {d : Declaration}
    (h : g.declarations ⟨a, ident⟩ = some d)
    (ha : d.kind = .value .local → g.Around a scope) : g.Visible scope ident d := by
  have hname : d.name = ⟨a, ident⟩ := g.named _ _ h
  unfold Visible
  rw [hname]
  exact ⟨rfl, h, ha⟩

theorem Visible.of_parent {scope p : ScopeRef} {ident : Identifier} {d : Declaration}
    (h : g.Visible p ident d) (hp : parentOf g.scopes scope = some p) :
    g.Visible scope ident d := by
  obtain ⟨hident, hd, haround⟩ := h
  exact ⟨hident, hd, fun hlocal => (haround hlocal).parent hp⟩

theorem Visible.body {scope : ScopeRef} {ident : Identifier} {d : Declaration}
    (h : g.Visible scope ident d) (hlocal : d.kind = .value .local) :
    g.body d.name.scope ∧ g.body scope := by
  have hbody : g.body d.name.scope := (g.localInBody _ _ h.2.1 hlocal).1
  exact ⟨hbody, g.body_of_around (h.2.2 hlocal) hbody⟩

theorem resolveNameFrom_visible {fuel : ℕ} {scope : ScopeRef} {ident : Identifier}
    {recurse : Bool} {d : Declaration}
    (h : g.resolveNameFrom fuel scope ident recurse = some d) : g.Visible scope ident d := by
  induction fuel generalizing scope with
  | zero => cases h
  | succ fuel ih =>
    unfold ScopeGraph.resolveNameFrom at h
    cases hd : g.declarations ⟨scope, ident⟩ with
    | some d' =>
      simp only [hd] at h
      obtain rfl := Option.some.inj h
      exact visible_of_declared hd fun _ => .refl scope
    | none =>
      simp only [hd] at h
      split_ifs at h
      cases hs : g.scopes[scope]? with
      | none => simp [hs] at h
      | some s =>
        simp only [hs] at h
        cases himport : s.imports ident with
        | some target =>
          obtain ⟨m, k⟩ := target
          simp only [himport] at h
          obtain ⟨d', hd', haround⟩ := g.imported scope s ident m k hs himport
          rw [hd'] at h
          obtain rfl := Option.some.inj h
          exact visible_of_declared hd' haround
        | none =>
          simp only [himport] at h
          cases hp : s.parent with
          | none => simp [hp] at h
          | some p =>
            simp only [hp] at h
            have hparent : parentOf g.scopes scope = some p := by
              simp [parentOf, hs, hp]
            exact (ih h).of_parent hparent

theorem resolveName_visible {scope : ScopeRef} {ident : Identifier} {recurse : Bool}
    {d : Declaration} (h : g.resolveName scope ident recurse = some d) :
    g.Visible scope ident d :=
  resolveNameFrom_visible h

theorem resolveIdent_visible {scope : ScopeRef} {ident : Meta Identifier} {recurse : Bool}
    {d : Declaration} (h : resolveIdent g.toScopeGraph scope ident recurse = .ok d) :
    g.Visible scope ident.node d := by
  unfold resolveIdent at h
  split_ifs at h
  cases hd : g.resolveName scope ident.node recurse with
  | none => simp [hd] at h
  | some d' =>
    simp only [hd] at h
    obtain rfl := Except.ok.inj h
    exact resolveName_visible hd

/-- What the module part of a path stands for. A local is found by the first identifier, and
the others come after it. -/
structure Found (g : LocalScopes) (scope : ScopeRef) (idents : List (Meta Identifier))
    (r : Resolved) : Prop where
  declared : g.declarations r.2.1.name = some r.2.1
  isLocal : r.2.1.kind = .value .local →
    g.Visible scope r.1.node r.2.1 ∧ idents = r.1 :: r.2.2

/-- Outside of bodies there are no locals to find. -/
theorem Found.outside {scope scope' : ScopeRef} {idents idents' : List (Meta Identifier)}
    {r : Resolved} (h : Found g scope idents r) (hscope : g.body scope = false) :
    Found g scope' idents' r where
  declared := h.declared
  isLocal := by
    intro hlocal
    have hbody : g.body scope := ((h.isLocal hlocal).1.body hlocal).2
    rw [hscope] at hbody
    cases hbody

theorem resolveRest_found {scope : ScopeRef} {ident : Meta Identifier} {recurse : Bool}
    {rest : List (Meta Identifier)} {r : Resolved}
    (h : resolveRest g.toScopeGraph scope ident recurse rest = .ok r) :
    Found g scope (ident :: rest) r := by
  induction rest generalizing scope ident recurse with
  | nil =>
    unfold resolveRest at h
    cases hstub : resolveIdent g.toScopeGraph scope ident recurse with
    | error e => simp [hstub] at h
    | ok stub =>
      simp only [hstub] at h
      obtain rfl := Except.ok.inj h
      have hvisible := resolveIdent_visible hstub
      exact ⟨hvisible.2.1, fun _ => ⟨hvisible, rfl⟩⟩
  | cons i rest ih =>
    unfold resolveRest at h
    cases hstub : resolveIdent g.toScopeGraph scope ident recurse with
    | error e => simp [hstub] at h
    | ok stub =>
      simp only [hstub] at h
      have hvisible := resolveIdent_visible hstub
      cases hscope : stub.scope with
      | none =>
        simp only [hscope] at h
        obtain rfl := Except.ok.inj h
        exact ⟨hvisible.2.1, fun _ => ⟨hvisible, rfl⟩⟩
      | some s =>
        simp only [hscope] at h
        have hs : g.body s = false := (g.scopeOutside _ _ _ hvisible.2.1 hscope).2
        exact (ih h).outside hs

theorem parentModuleFrom_declared {fuel : ℕ} {scope : ScopeRef} {d : Declaration}
    (h : g.parentModuleFrom fuel scope = some d) : g.declarations d.name = some d := by
  induction fuel generalizing scope with
  | zero => cases h
  | succ fuel ih =>
    unfold ScopeGraph.parentModuleFrom at h
    cases hs : g.scopes[scope]? with
    | none => simp [hs] at h
    | some s =>
      simp only [hs] at h
      cases htype : s.scopeType with
      | module m =>
        simp only [htype] at h
        cases hp : m.parentModule with
        | none => simp [hp] at h
        | some p =>
          simp only [hp] at h
          split at h
          · rw [g.named _ _ h]
            exact h
          · cases h
      | other =>
        simp only [htype] at h
        cases hp : s.parent with
        | none => simp [hp] at h
        | some p =>
          simp only [hp] at h
          exact ih h

theorem resolveSuper_outside {scope s : ScopeRef} {ident : Meta Identifier} {d : Declaration}
    (h : resolveSuper g.toScopeGraph scope ident = .ok (d, s)) :
    g.declarations d.name = some d ∧ d.scope = some s := by
  unfold resolveSuper at h
  cases hp : g.parentModule scope with
  | none => simp [hp] at h
  | some dec =>
    simp only [hp] at h
    cases hs : dec.scope with
    | none => simp [hs] at h
    | some s' =>
      simp only [hs] at h
      obtain ⟨rfl, rfl⟩ := Prod.mk.inj (Except.ok.inj h)
      exact ⟨parentModuleFrom_declared hp, hs⟩

theorem resolveModulePartOfPath_found {scope : ScopeRef} {ident : Meta Identifier}
    {rest : List (Meta Identifier)} {r : Resolved}
    (h : resolveModulePartOfPath g.toScopeGraph scope ident rest = .ok r) :
    Found g scope (ident :: rest) r := by
  induction rest generalizing scope ident with
  | nil =>
    unfold resolveModulePartOfPath at h
    split_ifs at h with hsuper
    · cases hs : resolveSuper g.toScopeGraph scope ident with
      | error e => simp [hs] at h
      | ok p =>
        obtain ⟨dec, s⟩ := p
        simp only [hs] at h
        obtain rfl := Except.ok.inj h
        obtain ⟨hdec, hscope⟩ := resolveSuper_outside hs
        refine ⟨hdec, fun hlocal => ?_⟩
        have hnone := (g.localInBody _ _ hdec hlocal).2
        rw [hscope] at hnone
        cases hnone
    · exact resolveRest_found h
  | cons i rest ih =>
    unfold resolveModulePartOfPath at h
    split_ifs at h with hsuper
    · cases hs : resolveSuper g.toScopeGraph scope ident with
      | error e => simp [hs] at h
      | ok p =>
        obtain ⟨dec, s⟩ := p
        simp only [hs] at h
        obtain ⟨hdec, hscope⟩ := resolveSuper_outside hs
        have houtside : g.body s = false := (g.scopeOutside _ _ _ hdec hscope).2
        exact (ih h).outside houtside
    · exact resolveRest_found h

/-! ### The operations of the type checker -/

/-- `ScopeGraph::new`. -/
def new : LocalScopes where
  declarations := fun _ => none
  scopes := [⟨.other, none, fun _ => none⟩]
  named := by
    intro n d h
    cases h
  older := by
    intro i s p hs hp
    cases i with
    | zero =>
      obtain rfl := Option.some.inj hs
      cases hp
    | succ i => cases hs
  parentModules := by
    intro s hs m p hm hp
    obtain rfl := List.mem_singleton.mp hs
    cases hm
  body := fun _ => false
  bodyInside := by
    intro i p _ h
    cases h
  present := by
    intro n d h
    cases h
  localInBody := by
    intro n d h
    cases h
  scopeOutside := by
    intro n d k h
    cases h
  imported := by
    intro i s x m k hs hx
    cases i with
    | zero =>
      obtain rfl := Option.some.inj hs
      cases hx
    | succ i => cases hs

/-- `wrap`, with whether the new scope is in a body. -/
def wrap (g : LocalScopes) (parent : ScopeRef) (scopeType : ScopeType) (inBody : Bool)
    (hwrap : g.canWrap parent scopeType = true) (hbody : g.body parent → inBody) :
    LocalScopes where
  toScopeGraph := g.toScopeGraph.wrap parent scopeType hwrap
  body := Function.update g.body g.scopes.length inBody
  bodyInside := by
    intro i p hp hbodyp
    have hparent : parent < g.scopes.length :=
      of_decide_eq_true (Bool.and_eq_true_iff.mp hwrap).1
    rcases parentOf_append_iff.mp hp with hold | ⟨rfl, hnew⟩
    · obtain ⟨s, hs, hsp⟩ := Option.bind_eq_some_iff.mp hold
      have hi : i < g.scopes.length := (List.getElem?_eq_some_iff.mp hs).1
      have hpi : p < i := g.older i s p hs hsp
      rw [Function.update_of_ne (Nat.ne_of_lt (Nat.lt_trans hpi hi))] at hbodyp
      rw [Function.update_of_ne (Nat.ne_of_lt hi)]
      exact g.bodyInside i p hold hbodyp
    · have heq : parent = p := Option.some.inj hnew
      subst heq
      rw [Function.update_of_ne (Nat.ne_of_lt hparent)] at hbodyp
      rw [Function.update_self]
      exact hbody hbodyp
  present := by
    intro n d h
    simp only [ScopeGraph.wrap, List.length_append]
    exact Nat.lt_add_right _ (g.present n d h)
  localInBody := by
    intro n d h hlocal
    rw [Function.update_of_ne (Nat.ne_of_lt (g.present n d h))]
    exact g.localInBody n d h hlocal
  scopeOutside := by
    intro n d k h hk
    obtain ⟨hlt, hbodyk⟩ := g.scopeOutside n d k h hk
    rw [Function.update_of_ne (Nat.ne_of_lt hlt)]
    simp only [ScopeGraph.wrap, List.length_append]
    exact ⟨Nat.lt_add_right _ hlt, hbodyk⟩
  imported := by
    intro i s x m k hs hx
    rcases getElem?_concat_cases hs with hs | ⟨-, rfl⟩
    · obtain ⟨d, hd, haround⟩ := g.imported i s x m k hs hx
      exact ⟨d, hd, fun hlocal => (haround hlocal).mono fun _ _ => parentOf_append⟩
    · cases hx

/-- What may be entered into a graph: a declaration in a scope that there is, with the scope it
had unless it gets one outside of bodies; a local only where nothing is declared, in a body. -/
structure Declares (g : LocalScopes) (d : Declaration) : Prop where
  present : d.name.scope < g.scopes.length
  isLocal : d.kind = .value .local →
    g.declarations d.name = none ∧ g.body d.name.scope ∧ d.scope = none
  outside : ∀ k, d.scope = some k → k < g.scopes.length ∧ g.body k = false
  keeps : ∀ old, g.declarations d.name = some old → old.scope.isSome → d.scope.isSome

/-- The graph with a declaration entered. -/
def enter (g : LocalScopes) (d : Declaration) (h : Declares g d) : LocalScopes where
  toScopeGraph := g.toScopeGraph.enter d h.keeps
  body := g.body
  bodyInside := g.bodyInside
  present := by
    intro n d' hd'
    rcases ScopeGraph.enter_cases hd' with ⟨rfl, rfl⟩ | ⟨-, hd'⟩
    · exact h.present
    · exact g.present n d' hd'
  localInBody := by
    intro n d' hd' hlocal
    rcases ScopeGraph.enter_cases hd' with ⟨rfl, rfl⟩ | ⟨-, hd'⟩
    · exact (h.isLocal hlocal).2
    · exact g.localInBody n d' hd' hlocal
  scopeOutside := by
    intro n d' k hd' hk
    rcases ScopeGraph.enter_cases hd' with ⟨rfl, rfl⟩ | ⟨-, hd'⟩
    · exact h.outside k hk
    · exact g.scopeOutside n d' k hd' hk
  imported := by
    intro i s x m k hs hx
    obtain ⟨d', hd', haround⟩ := g.imported i s x m k hs hx
    by_cases hn : (⟨k, x⟩ : ResolvedName) = d.name
    · refine ⟨d, by rw [hn, ScopeGraph.enter_self], fun hlocal => ?_⟩
      -- a local is new, and what is new was not imported
      have hnone := (h.isLocal hlocal).1
      rw [← hn, hd'] at hnone
      cases hnone
    · exact ⟨d', by rw [ScopeGraph.enter_ne _ _ hn]; exact hd', haround⟩

/-- `insert_import`, with what an `import` resolved to. -/
def insertImport (g : LocalScopes) (scope : ScopeRef) (id : MetaId) (d : Declaration)
    (hd : g.declarations d.name = some d)
    (haround : d.kind = .value .local → g.Around d.name.scope scope) : LocalScopes where
  toScopeGraph := g.toScopeGraph.withImports scope
    (Function.update (g.importsOf scope) d.name.ident (some (id, d.name.scope)))
  body := g.body
  bodyInside := by
    intro i p hp
    rw [ScopeGraph.withImports, parentOf_modify] at hp
    exact g.bodyInside i p hp
  present := by
    intro n d' h
    simp only [ScopeGraph.withImports, List.length_modify]
    exact g.present n d' h
  localInBody := g.localInBody
  scopeOutside := by
    intro n d' k h hk
    simp only [ScopeGraph.withImports, List.length_modify]
    exact g.scopeOutside n d' k h hk
  imported := by
    have hmono : ∀ i p, parentOf g.scopes i = some p →
        parentOf (g.withImports scope (Function.update (g.importsOf scope) d.name.ident
          (some (id, d.name.scope)))).scopes i = some p := by
      intro i p hp
      rw [ScopeGraph.withImports, parentOf_modify]
      exact hp
    intro i s x m k hs hx
    rw [ScopeGraph.withImports, List.getElem?_modify] at hs
    obtain ⟨t, ht, rfl⟩ := Option.map_eq_some_iff.mp hs
    have hold : t.imports x = some (m, k) → ∃ d', g.declarations ⟨k, x⟩ = some d' ∧
        (d'.kind = .value .local → g.Around k i) := g.imported i t x m k ht
    by_cases hi : scope = i
    · subst hi
      simp only [if_true] at hx
      by_cases hxd : x = d.name.ident
      · subst hxd
        rw [Function.update_self] at hx
        obtain ⟨-, rfl⟩ := Prod.mk.inj (Option.some.inj hx)
        exact ⟨d, hd, fun hlocal => (haround hlocal).mono hmono⟩
      · rw [Function.update_of_ne hxd, ScopeGraph.importsOf, ht] at hx
        obtain ⟨d', hd', haround'⟩ := hold hx
        exact ⟨d', hd', fun hlocal => (haround' hlocal).mono hmono⟩
    · simp only [if_neg hi] at hx
      obtain ⟨d', hd', haround'⟩ := hold hx
      exact ⟨d', hd', fun hlocal => (haround' hlocal).mono hmono⟩

end LocalScopes

end Roto.TypeChecker
