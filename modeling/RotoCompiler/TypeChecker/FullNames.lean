import RotoCompiler.FileTree
import RotoCompiler.Lib.FlatNames
import RotoCompiler.TypeChecker.Scope

/-!
# Full names (typechecker/info.rs, typechecker/scope.rs, typechecker/mod.rs)

The scope graph as it is printed, the passes of the type checker that declare modules and
items in it, and the names under which the items are declared in the JIT module.
-/

namespace Roto.TypeChecker
open Lib

/-! ### The scope graph, with what is printed of it -/

/-- `ScopeType`. -/
inductive NamedScopeType where
  | root
  | then_ (idx : ℕ)
  | else_ (idx : ℕ)
  | whileBody (idx : ℕ)
  | forBody (idx : ℕ)
  | module (m : ModuleScope)
  | function (name : Identifier)
  | matchArm (idx : ℕ) (arm : Option ℕ)
  | type (name : Identifier)
  | typeParams
  | block (idx : ℕ)
  deriving DecidableEq, Repr

structure NamedScope where
  scopeType : NamedScopeType
  parent : Option ScopeRef
  deriving DecidableEq, Repr

/-- A declaration is a stub until it is evaluated. -/
structure NamedDeclaration where
  kind : DeclarationKind
  evaluated : Bool
  id : MetaId
  deriving DecidableEq, Repr

structure NameGraph where
  declarations : ResolvedName → Option NamedDeclaration
  scopes : List NamedScope
  root : scopes[0]? = some ⟨.root, none⟩

/-- Type checking stops at an error; `none` is a panic. -/
abbrev Checked := ExceptT TypeError Option

namespace NameGraph

variable (g : NameGraph)

def wrap (parent : ScopeRef) (scopeType : NamedScopeType) : NameGraph where
  declarations := g.declarations
  scopes := g.scopes ++ [⟨scopeType, some parent⟩]
  root := by
    obtain ⟨hlt, -⟩ := List.getElem?_eq_some_iff.mp g.root
    rw [List.getElem?_append_left hlt]
    exact g.root

def enter (name : ResolvedName) (d : NamedDeclaration) : NameGraph :=
  { g with declarations := Function.update g.declarations name (some d) }

/-- `insert_declaration`; the error is the id of the old declaration. -/
def insertDeclaration (scope : ScopeRef) (ident : Meta Identifier) (kind : DeclarationKind)
    (evaluated : Bool) (updateIf : NamedDeclaration → Bool) : Except MetaId NameGraph :=
  match g.declarations ⟨scope, ident.node⟩ with
  | none => .ok (g.enter ⟨scope, ident.node⟩ ⟨kind, evaluated, ident.id⟩)
  | some old =>
    if updateIf old then .ok (g.enter ⟨scope, ident.node⟩ ⟨kind, evaluated, old.id⟩)
    else .error old.id

/-- The loop of `module_name`, from the module outwards. Each round goes to another module, so
that there are no more rounds than scopes; `none` is the panic at a scope of another type. -/
def moduleIdents : ℕ → ModuleScope → Option (List Text)
  | 0, _ => none
  | fuel + 1, m =>
    match m.parentModule with
    | none => some [m.name.ident.toList]
    | some idx =>
      match (g.scopes[idx]?).map NamedScope.scopeType with
      | some (.module m') => (moduleIdents fuel m').map fun idents => m.name.ident.toList :: idents
      | _ => none

def moduleName (m : ModuleScope) : Option Text :=
  (g.moduleIdents g.scopes.length m).map fun idents => ['.'].intercalate idents.reverse

/-- What `print_scope` pushes for a scope; nothing is pushed for the root. -/
def printScopeType : NamedScopeType → Option (Option Text)
  | .root => some none
  | .module m => (g.moduleName m).map some
  | .function name => some (some name.toList)
  | .block idx => some (some s!"$block_{idx}".toList)
  | .then_ idx => some (some s!"$if_{idx}_then".toList)
  | .else_ idx => some (some s!"$if_{idx}_else".toList)
  | .matchArm idx (some arm) => some (some s!"$match_{idx}_arm_{arm}".toList)
  | .matchArm idx none => some (some s!"$match_{idx}_arm_default".toList)
  | .whileBody idx => some (some s!"$while_body_{idx}".toList)
  | .forBody idx => some (some s!"$for_body_{idx}".toList)
  | .type name => some (some name.toList)
  | .typeParams => some (some "$type_params".toList)

/-- The loop of `print_scope`, from the scope outwards. -/
def scopeIdents : ℕ → ScopeRef → Option (List Text)
  | 0, _ => none
  | fuel + 1, scope => do
    let s ← g.scopes[scope]?
    match ← g.printScopeType s.scopeType with
    | none => return []
    | some ident =>
      match s.parent with
      | none => return [ident]
      | some parent => return ident :: (← scopeIdents fuel parent)

def printScope (scope : ScopeRef) : Option Text :=
  (g.scopeIdents (g.scopes.length + 1) scope).map fun idents => ['.'].intercalate idents.reverse

def fullName (name : ResolvedName) : Option Text := do
  let s ← g.printScope name.scope
  return s ++ '.' :: name.ident.toList

end NameGraph

/-! ### Declaring modules and items -/

def orDeclaredTwice (ident : Meta Identifier) (r : Except MetaId NameGraph) : Checked NameGraph :=
  match r with
  | .ok g => pure g
  | .error old => throw (errorDeclaredTwice ident old)

def insertModule (scope : ScopeRef) (ident : Meta Identifier) (g : NameGraph) :
    Checked NameGraph :=
  orDeclaredTwice ident (g.insertDeclaration scope ident .module true fun _ => false)

/-- `insert_function`, which also evaluates a function that was declared before. -/
def insertFunction (scope : ScopeRef) (ident : Meta Identifier) (g : NameGraph) :
    Checked NameGraph :=
  orDeclaredTwice ident (g.insertDeclaration scope ident .function true fun d =>
    d.kind = .function && !d.evaluated)

def insertConst (scope : ScopeRef) (ident : Meta Identifier) (g : NameGraph) :
    Checked NameGraph :=
  orDeclaredTwice ident (g.insertDeclaration scope ident (.value .constant) true fun d =>
    d.kind = .value .constant && !d.evaluated)

def insertStub (scope : ScopeRef) (ident : Meta Identifier) (kind : DeclarationKind)
    (g : NameGraph) : Checked NameGraph :=
  orDeclaredTwice ident (g.insertDeclaration scope ident kind false fun _ => false)

section
variable {u : Parser.Unicode}

/-- The body of the inner loop of `declare_modules`. A variant that is declared twice is
reported at the enum. -/
def declareItem (scope : ScopeRef) (g : NameGraph) : Ast.Declaration u → Checked NameGraph
  | .record x => insertStub scope x.toMeta .type (g.wrap scope (.type x.node))
  | .enum x variants => do
    let newScope := g.scopes.length
    let g ← insertStub scope x.toMeta .type (g.wrap scope (.type x.node))
    variants.foldlM (fun g variant => orDeclaredTwice x.toMeta
      (g.insertDeclaration newScope variant.toMeta .enum false fun _ => false)) g
  | .function x => insertStub scope x.toMeta .function g
  | .filterMap x => insertStub scope x.toMeta .function g
  | .const x => insertStub scope x.toMeta (.value .constant) g
  | .import => pure g
  | .test _ => pure g

/-- The module around a module, which comes earlier in the tree. -/
def parentModule (scopes : List ScopeRef) : Option ℕ → Checked (Option ScopeRef)
  | none => pure none
  | some p =>
    match scopes[p]? with
    | some scope => pure (some scope)
    | none => ExceptT.mk none

/-- The body of the loop of `declare_modules`. -/
def declareModule (state : NameGraph × List ScopeRef) (m : Module u) :
    Checked (NameGraph × List ScopeRef) := do
  let (g, scopes) := state
  let parent ← parentModule scopes m.parent
  let around := parent.getD ScopeRef.GLOBAL
  let scope := g.scopes.length
  let g := g.wrap ScopeRef.GLOBAL (.module ⟨⟨around, m.ident.node⟩, parent⟩)
  let g ← insertModule around m.ident g
  let g ← m.ast.foldlM (declareItem scope) g
  return (g, scopes ++ [scope])

def declareModules (g : NameGraph) (tree : ModuleTree u) : Checked (NameGraph × List ScopeRef) :=
  tree.modules.foldlM declareModule (g, [])

/-- The loops over the declarations of all modules, with the scopes of the modules. -/
def overDeclarations (f : ScopeRef → NameGraph → Ast.Declaration u → Checked NameGraph)
    (modules : List (ScopeRef × Module u)) (g : NameGraph) : Checked NameGraph :=
  modules.foldlM (fun g m => m.2.ast.foldlM (f m.1) g) g

/-- The body of the loops of `declare_functions`. -/
def declareFunction (scope : ScopeRef) (g : NameGraph) : Ast.Declaration u → Checked NameGraph
  | .function x => insertFunction scope x.toMeta g
  | .filterMap x => insertFunction scope x.toMeta g
  | .const x => insertConst scope x.toMeta g
  | _ => pure g

/-- Scopes and declarations are added to a graph, and stubs are evaluated. -/
structure Grows (g g' : NameGraph) : Prop where
  scopes : g.scopes <+: g'.scopes
  declarations : ∀ n d, g.declarations n = some d → ∃ d', g'.declarations n = some d' ∧
    d'.kind = d.kind ∧ (d.evaluated = true → d'.evaluated = true)

/-- The passes over imports, types and bodies. All that they can do to a graph is let it grow. -/
structure OtherPasses (u : Parser.Unicode) where
  importsAndTypes : NameGraph → Checked NameGraph
  body : ScopeRef → NameGraph → Ast.Declaration u → Checked NameGraph
  importsAndTypes_grows : ∀ g g', (importsAndTypes g).run = some (.ok g') → Grows g g'
  body_grows : ∀ scope d g g', (body scope g d).run = some (.ok g') → Grows g g'

def testName (ident : Meta Identifier) : Meta Identifier := ⟨"test#" ++ ident.node, ident.id⟩

/-- The body of the loops of `tree`. -/
def checkItem (rest : OtherPasses u) (scope : ScopeRef) (g : NameGraph) :
    Ast.Declaration u → Checked NameGraph
  | .test x => do
    let g ← insertFunction scope (testName x.toMeta) g
    rest.body scope g (.test x)
  | .function x => rest.body scope g (.function x)
  | .filterMap x => rest.body scope g (.filterMap x)
  | .const x => rest.body scope g (.const x)
  | _ => pure g

/-- `check_module_tree`, with the graph of the runtime to start with. -/
def checkModuleTree (rest : OtherPasses u) (g : NameGraph) (tree : ModuleTree u) :
    Checked (NameGraph × List ScopeRef) := do
  let (g, scopes) ← declareModules g tree
  let modules := scopes.zip tree.modules
  let g ← rest.importsAndTypes g
  let g ← overDeclarations declareFunction modules g
  let g ← overDeclarations (checkItem rest) modules g
  return (g, scopes)

/-! ### Items and their names -/

/-- The name under which the type checker enters an item that is lowered. -/
def itemName : Ast.Declaration u → Option Identifier
  | .function x | .filterMap x | .const x => some x.node
  | .test x => some (testName x.toMeta).node
  | _ => none

/-- An item is given by the number of its module and its number in the module. -/
def itemAt (tree : ModuleTree u) (item : ℕ × ℕ) : Option Identifier := do
  let m ← tree.modules[item.1]?
  let d ← m.ast[item.2]?
  itemName d

/-- The name of an item in the JIT module: the full name of what it was resolved to. -/
def itemFullName (g : NameGraph) (scopes : List ScopeRef) (tree : ModuleTree u)
    (item : ℕ × ℕ) : Option Text := do
  let ident ← itemAt tree item
  let scope ← scopes[item.1]?
  g.fullName ⟨scope, ident⟩

end

inductive GeneratedKind where
  | clone | drop | eq
  deriving DecidableEq, Repr

def GeneratedKind.word : GeneratedKind → String
  | clone => "clone"
  | drop => "drop"
  | eq => "eq"

/-- The name of a generated function, with the number of its type. -/
def generatedName (kind : GeneratedKind) (typeId : ℕ) : Text :=
  s!"::generated::{kind.word}_{typeId}".toList

end Roto.TypeChecker
