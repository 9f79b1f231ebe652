import RotoCompiler.TypeChecker.Scope

/-!
# Imports (typechecker/mod.rs, typechecker/expr.rs)

How the module part of a path is resolved, and the loop that resolves the imports of a scope
until none is left or none can be resolved any more.
-/

namespace Roto.TypeChecker

/-- A path; the parser makes no empty one. -/
structure ImportPath where
  first : Meta Identifier
  rest : List (Meta Identifier)
  deriving DecidableEq, Repr

/-- The last identifier that was taken from a path, what it stands for, and the identifiers
that are left. -/
abbrev Resolved := Meta Identifier × Declaration × List (Meta Identifier)

variable (g : ScopeGraph)

/-- One identifier of the second loop of `resolve_module_part_of_path`. -/
def resolveIdent (scope : ScopeRef) (ident : Meta Identifier) (recurse : Bool) :
    Except TypeError Declaration :=
  if ident.node = "super" then .error (errorTooManySuper ident)
  else
    match g.resolveName scope ident.node recurse with
    | none => .error (errorNotDefined ident)
    | some stub => .ok stub

/-- The second loop: after the first identifier only what is declared in the scope itself is
found. -/
def resolveRest (scope : ScopeRef) (ident : Meta Identifier) (recurse : Bool) :
    List (Meta Identifier) → Except TypeError Resolved
  | [] =>
    match resolveIdent g scope ident recurse with
    | .error e => .error e
    | .ok stub => .ok (ident, stub, [])
  | i :: rest =>
    match resolveIdent g scope ident recurse with
    | .error e => .error e
    | .ok stub =>
      match stub.scope with
      | none => .ok (ident, stub, i :: rest)
      | some s => resolveRest s i false rest

/-- What a `super` stands for, with its scope. -/
def resolveSuper (scope : ScopeRef) (ident : Meta Identifier) :
    Except TypeError (Declaration × ScopeRef) :=
  match g.parentModule scope with
  | none => .error (errorTooManySuper ident)
  | some dec =>
    match dec.scope with
    -- unreachable: a parent module has a scope
    | none => .error (errorTooManySuper ident)
    | some s => .ok (dec, s)

/-- `TypeChecker::resolve_module_part_of_path`. -/
def resolveModulePartOfPath (scope : ScopeRef) (ident : Meta Identifier) :
    List (Meta Identifier) → Except TypeError Resolved
  | [] =>
    if ident.node = "super" then
      match resolveSuper g scope ident with
      | .error e => .error e
      | .ok (dec, _) => .ok (ident, dec, [])
    else resolveRest g scope ident true []
  | tmpIdent :: rest =>
    if ident.node = "super" then
      match resolveSuper g scope ident with
      | .error e => .error e
      | .ok (_, s) => resolveModulePartOfPath s tmpIdent rest
    else resolveRest g scope ident true (tmpIdent :: rest)

/-- `TypeChecker::import`. -/
def importPath (scope : ScopeRef) (path : ImportPath) : Except TypeError ScopeGraph :=
  match resolveModulePartOfPath g scope path.first path.rest with
  | .error e => .error e
  | .ok (ident, declaration, _ :: _) => .error (errorExpectedModule ident declaration)
  | .ok (ident, declaration, []) =>
    match g.insertImport scope ident.id declaration.name with
    | .error old => .error (errorDeclaredTwice ident old)
    | .ok g => .ok g

/-- `paths.retain(|p| self.import(scope, p).is_err())`. -/
def retain (scope : ScopeRef) : ScopeGraph → List ImportPath → List ImportPath × ScopeGraph
  | g, [] => ([], g)
  | g, p :: paths =>
    match importPath g scope p with
    | .ok g => retain scope g paths
    | .error _ =>
      let (rest, g) := retain scope g paths
      (p :: rest, g)

/-- The loop of `imports`, with `none` when there is no fuel for another round. -/
def importsLoop (scope : ScopeRef) :
    ℕ → ScopeGraph → List ImportPath → Option (Except TypeError ScopeGraph)
  | 0, _, _ => none
  | fuel + 1, g, paths =>
    let (rest, g) := retain scope g paths
    if rest = [] then some (.ok g)
    else if rest.length = paths.length then
      match rest.foldlM (fun g p => importPath g scope p) g with
      | .error e => some (.error e)
      | .ok g => importsLoop scope fuel g rest
    else importsLoop scope fuel g rest

/-- `TypeChecker::imports`. Every round but the last one takes a path away. -/
def imports (scope : ScopeRef) (paths : List ImportPath) : Option (Except TypeError ScopeGraph) :=
  importsLoop scope (paths.length + 1) g paths

end Roto.TypeChecker
