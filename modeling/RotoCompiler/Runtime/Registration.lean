import RotoCompiler.Lib.Traced
import RotoCompiler.Runtime.Layout
import RotoCompiler.TypeChecker.Info
import RotoCompiler.TypeChecker.Scope
import RotoCompiler.Value.Boundary

/-!
# Registration of items (runtime/mod.rs, runtime/items.rs, typechecker/mod.rs)

`Runtime::add` goes over the items of a library five times, and stops at the first error with
what was registered before it. A type is entered in the list of types of the runtime, in the
scope graph and in the type map. Documentation, locations and the code of functions and
constants are left out.
-/

namespace Roto.Runtime
open TypeChecker
open Value (RustTy)

/-- The layouts of Rust types, and the ids of those that the code knows by name. -/
structure RustTypes where
  layout : ℕ → Layout
  primitive : Primitive → ℕ
  erasedList : ℕ
  dynVal : ℕ
  vtable : ℕ
  rustName : ℕ → String
  primitive_injective : Function.Injective primitive
  primitive_ne_list : ∀ p, primitive p ≠ erasedList

/-- The functions `extern_clone::<T>` and so on are given by the id of `T`. -/
inductive Movability where
  | value
  | copy
  | cloneDrop (clone drop : ℕ)
  deriving DecidableEq, Repr

/-- `items::Type`, where all is about one Rust type. -/
structure TypeItem (ids : RustTypes) where
  ident : Identifier
  rustName : String
  typeId : ℕ
  layout : Layout
  movability : Movability
  eqFn : ℕ
  sameFns : ∀ clone drop, movability = .cloneDrop clone drop → clone = typeId ∧ drop = typeId
  sameEq : eqFn = typeId
  sameLayout : layout = ids.layout typeId

structure RuntimeType where
  name : ResolvedName
  typeId : ℕ
  movability : Movability
  eqFn : ℕ
  layout : Layout

/-- The type parameters of a function are those of its explicit signature, if it has one. -/
structure FunctionItem where
  ident : Identifier
  sig : Option (List Identifier)
  parameterTypes : List RustTy
  returnType : RustTy

structure ConstantItem where
  ident : Identifier
  type : RustTy

inductive Item (ids : RustTypes) where
  | function (f : FunctionItem)
  | type (ty : TypeItem ids)
  | module (ident : Identifier) (children : List (Item ids))
  | constant (c : ConstantItem)
  | impl (ty : ℕ) (children : List (Item ids))
  | use (imports : List (List Identifier))

/-- The scope graph, the definitions of the types declared in it, the type map, and the types
of the runtime. -/
structure Rt where
  graph : ScopeGraph
  definitions : TypeMap
  typeMap : TypeMap
  types : List RuntimeType

/-- A call of `declare_runtime_type`, with the state before it. -/
structure Call where
  rt : Rt
  scope : ScopeRef
  ident : Identifier
  typeId : ℕ

abbrev Reg (α : Type) := Traced Rt Call String α

variable (ids : RustTypes)

/-! ### The scope graph -/

/-- `wrap`. The parent is always a scope of the graph. -/
def wrap (parent : ScopeRef) (scopeType : ScopeType) : Reg ScopeRef := fun rt =>
  if h : rt.graph.canWrap parent scopeType = true then
    some (.ok rt.graph.scopes.length, { rt with graph := rt.graph.wrap parent scopeType h }, [])
  else some (.ok rt.graph.scopes.length, rt, [])

/-- `insert_declaration`. There are no stubs to be updated before a script is checked. -/
def insertDeclaration (name : ResolvedName) (kind : DeclarationKind) (scope : Option ScopeRef)
    (error : String) : Reg Unit := fun rt =>
  if h : rt.graph.declarations name = none then
    some (.ok (), { rt with graph := rt.graph.enter ⟨name, kind, 0, scope⟩ (by
      intro old hold
      rw [h] at hold
      cases hold) }, [])
  else some (.error error, rt, [])

def insertImport (scope : ScopeRef) (name : ResolvedName) : Reg Unit := fun rt =>
  match rt.graph.insertImport scope 0 name with
  | .ok graph => some (.ok (), { rt with graph }, [])
  | .error _ => some (.error "Name declared twice!", rt, [])

/-- `get_scope_of`. -/
def Rt.scopeOf (rt : Rt) (scope : ScopeRef) (ident : Identifier) : Option ScopeRef :=
  (rt.graph.resolveName scope ident false).bind Declaration.scope

/-- `insert_type`, with the definition. -/
def insertType (name : ResolvedName) (definition : TypeDefinition) (error : String) :
    Reg Unit := do
  let newScope ← wrap name.scope .other
  insertDeclaration name .type (some newScope) error
  Traced.modify fun rt => { rt with definitions := (name, definition) :: rt.definitions }

/-! ### Built-in types -/

def primitives : List Primitive :=
  [.int .unsigned .i8, .int .unsigned .i16, .int .unsigned .i32, .int .unsigned .i64,
    .int .signed .i8, .int .signed .i16, .int .signed .i32, .int .signed .i64, .float .f32,
    .float .f64, .bool, .char, .string, .asn, .ipAddr, .ipPrefix]

def enumType (ident : Identifier) (params : List Identifier) (variants : List EnumVariant) :
    Identifier × TypeDefinition :=
  (ident, .enum ⟨⟨ScopeRef.GLOBAL, ident⟩, params.map .explicitVar⟩ variants)

def defaultTypes : List (Identifier × TypeDefinition) :=
  (primitives.map fun p => (p.ident, .primitive p)) ++
    [enumType "Option" ["T"] [⟨"Some", [.explicitVar "T"]⟩, ⟨"None", []⟩],
      enumType "Verdict" ["A", "R"] [⟨"Accept", [.explicitVar "A"]⟩, ⟨"Reject", [.explicitVar "R"]⟩],
      enumType "Result" ["T", "E"] [⟨"Ok", [.explicitVar "T"]⟩, ⟨"Err", [.explicitVar "E"]⟩],
      ("List", .list ⟨⟨ScopeRef.GLOBAL, "List"⟩, [.explicitVar "T"]⟩)]

/-- The loop over the variants of a built-in enum. -/
def declareVariants (scope : ScopeRef) : List EnumVariant → Reg Unit
  | [] => pure ()
  | variant :: variants => do
    insertDeclaration ⟨scope, variant.name⟩ .enum none "declared twice"
    declareVariants scope variants

def declareBuiltinVariants (ident : Identifier) : TypeDefinition → Reg Unit
  | .enum _ variants => do
    let rt ← Traced.get
    let scope ← Traced.unwrap (rt.scopeOf ScopeRef.GLOBAL ident)
    declareVariants scope variants
  | _ => pure ()

/-- One round of the loop of `declare_builtin_types`. -/
def declareBuiltinType (ident : Identifier) (definition : TypeDefinition) : Reg Unit := do
  let name : ResolvedName := ⟨ScopeRef.GLOBAL, ident⟩
  insertType name definition "declared twice"
  declareBuiltinVariants ident definition
  Traced.modify fun rt => { rt with typeMap := (name, definition) :: rt.typeMap }

/-- `TypeChecker::declare_builtin_types`. -/
def declareBuiltinTypes : List (Identifier × TypeDefinition) → Reg Unit
  | [] => pure ()
  | (ident, definition) :: types => do
    declareBuiltinType ident definition
    declareBuiltinTypes types

/-- The scopes of an empty scope graph: the root. -/
abbrev rootScopes : List TypeChecker.Scope := [⟨.other, none, fun _ => none⟩]

theorem nothing_named (n : ResolvedName) (d : TypeChecker.Declaration)
    (h : (none : Option TypeChecker.Declaration) = some d) : d.name = n := by
  cases h

theorem rootScopes_older (i : ℕ) (s : TypeChecker.Scope) (p : ScopeRef)
    (hs : rootScopes[i]? = some s) (hp : s.parent = some p) : p < i := by
  cases i with
  | zero =>
    obtain rfl := Option.some.inj hs
    cases hp
  | succ i => cases hs

theorem rootScopes_parentModules (s : TypeChecker.Scope) (hs : s ∈ rootScopes)
    (m : TypeChecker.ModuleScope) (p : ScopeRef) (hm : s.scopeType = .module m)
    (_ : m.parentModule = some p) :
    ∃ s' m' d, rootScopes[p]? = some s' ∧ s'.scopeType = .module m' ∧
      (none : Option TypeChecker.Declaration) = some d ∧ d.scope.isSome := by
  obtain rfl := List.mem_singleton.mp hs
  cases hm

/-- The state with an empty scope graph. -/
def Rt.empty : Rt where
  graph :=
    { declarations := fun _ => none
      scopes := [⟨.other, none, fun _ => none⟩]
      named := nothing_named
      older := rootScopes_older
      parentModules := rootScopes_parentModules }
  definitions := []
  typeMap := []
  types := []

/-- The state that `TypeChecker::new` makes. -/
def Rt.new : Rt :=
  match declareBuiltinTypes defaultTypes Rt.empty with
  | some (_, rt, _) => rt
  | none => Rt.empty

/-! ### Rust types -/

/-- `get_runtime_type`. -/
def Rt.getRuntimeType (rt : Rt) (id : ℕ) : Option RuntimeType :=
  rt.types.find? fun ty => ty.typeId = id

/-- A Rust type that is known by its id. -/
def leafToRotoType (rt : Rt) (id : ℕ) : Except String Typ :=
  match rt.getRuntimeType id with
  | none => .error s!"unregistered type: {ids.rustName id}"
  | some ty => .ok (.name ty.name [])

/-- The id of a type that is described as a leaf or a `Val`. -/
def leafId : RustTy → Option ℕ
  | .primitive p => some (ids.primitive p)
  | .leaf id => some id
  | .val id => some id
  | .dynVal => some ids.dynVal
  | .vtable => some ids.vtable
  | .erasedList => some ids.erasedList
  | _ => none

/-- `TypeChecker::rust_type_to_roto_type`. -/
def rustTypeToRotoType (rt : Rt) : RustTy → Except String Typ
  | .unit => .ok .unit
  | .option t => do return .option (← rustTypeToRotoType rt t)
  | .verdict a r => do
    let a ← rustTypeToRotoType rt a
    let r ← rustTypeToRotoType rt r
    return .verdict a r
  | .result a r => do
    let a ← rustTypeToRotoType rt a
    let r ← rustTypeToRotoType rt r
    return .named "Result" [a, r]
  | .list t => do return .list (← rustTypeToRotoType rt t)
  | .primitive p => leafToRotoType ids rt (ids.primitive p)
  | .leaf id => leafToRotoType ids rt id
  | .val id => leafToRotoType ids rt id
  | .dynVal => leafToRotoType ids rt ids.dynVal
  | .vtable => leafToRotoType ids rt ids.vtable
  | .erasedList => leafToRotoType ids rt ids.erasedList

/-! ### Items -/

/-- `TypeChecker::declare_runtime_module`. -/
def declareRuntimeModule (parent : Option ScopeRef) (ident : Identifier) : Reg ScopeRef := do
  let name : ResolvedName := ⟨parent.getD ScopeRef.GLOBAL, ident⟩
  let modScope ← wrap ScopeRef.GLOBAL (.module ⟨name, parent⟩)
  insertDeclaration name .module (some modScope)
    s!"An item with the name `{ident}` already exists"
  return modScope

/-- The built-in type that a name is taken for: a primitive or the type of lists. -/
def Rt.builtin (rt : Rt) (scope : ScopeRef) (ident : Identifier) :
    Option (ResolvedName × TypeDefinition) :=
  match rt.graph.resolveName scope ident true with
  | none => none
  | some other =>
    match other.kind, rt.definitions.resolveTypeName other.name with
    | .type, some (.primitive p) => some (other.name, .primitive p)
    | .type, some (.list tn) => some (other.name, .list tn)
    | _, _ => none

/-- `TypeChecker::declare_runtime_type`. -/
def declareRuntimeType (scope : ScopeRef) (ident : Identifier) (typeId : ℕ) : Reg Unit := do
  let rt ← Traced.get
  Traced.report ⟨rt, scope, ident, typeId⟩
  match rt.builtin scope ident with
  -- primitives are already in the type checker
  | some _ => pure ()
  | none =>
    let name : ResolvedName := ⟨scope, ident⟩
    let ty := TypeDefinition.runtime name typeId
    insertType name ty s!"Item `{ident}` already exists in this scope"
    Traced.modify fun rt => { rt with typeMap := (name, ty) :: rt.typeMap }

/-- `Rt::declare_type`. -/
def declareType (scope : ScopeRef) (ty : TypeItem ids) : Reg Unit := do
  let rt ← Traced.get
  match rt.types.find? fun oldTy => oldTy.typeId = ty.typeId with
  | some oldTy =>
    Traced.fail (s!"Type {ty.rustName} is already registered under a different name: " ++
      s!"{oldTy.name.ident}`")
  | none =>
    declareRuntimeType scope ty.ident ty.typeId
    Traced.modify fun rt => { rt with types := rt.types ++
      [⟨⟨scope, ty.ident⟩, ty.typeId, ty.movability, ty.eqFn, ty.layout⟩] }

/-- The loop over the type parameters of a signature. -/
def declareTypeParams (scope : ScopeRef) : List Identifier → Reg Unit
  | [] => pure ()
  | ident :: idents => fun rt =>
    match insertDeclaration ⟨scope, ident⟩ .typeParam none "declared twice" rt with
    | some (.ok (), rt, _) => declareTypeParams scope idents rt
    -- an `unwrap`
    | _ => none

/-- The loop over the Rust types of a function without a signature. -/
def convertTypes : List RustTy → Reg Unit
  | [] => pure ()
  | ty :: tys => do
    let rt ← Traced.get
    let _ ← Traced.ofExcept (rustTypeToRotoType ids rt ty)
    convertTypes tys

/-- The signature of a function, explicit or inferred from its Rust types. The types of an
explicit signature are written by this crate. -/
def declareSignature (scope : ScopeRef) (f : FunctionItem) : Reg Unit :=
  match f.sig with
  | some typeParams => do
    let paramScope ← wrap scope .other
    declareTypeParams paramScope typeParams
  | none => convertTypes ids (f.parameterTypes ++ [f.returnType])

/-- `Rt::declare_function`. -/
def declareFunction (scope : ScopeRef) (f : FunctionItem) (method : Bool) : Reg Unit := do
  declareSignature ids scope f
  insertDeclaration ⟨scope, f.ident⟩ (if method then .method else .function) none
    "name is declared twice"

/-- `Rt::declare_constant`. -/
def declareConstant (scope : ScopeRef) (c : ConstantItem) : Reg Unit := do
  let rt ← Traced.get
  let _ ← Traced.ofExcept (rustTypeToRotoType ids rt c.type)
  insertDeclaration ⟨scope, c.ident⟩ (.value .constant) none "Name declared twice!"

/-- The scope of the type of an `impl`; a type without a scope is an `unwrap` of `None`. -/
def implScope (ty : ℕ) : Reg ScopeRef := do
  let rt ← Traced.get
  match rt.getRuntimeType ty with
  | none => Traced.fail "Impl block with unregistered type"
  | some ty => Traced.unwrap (rt.scopeOf ty.name.scope ty.name.ident)

/-- The loop over the path of an import, which looks every part up in the same scope. -/
def importScope (scope : ScopeRef) : ScopeRef → List Identifier → Reg ScopeRef
  | newScope, [] => pure newScope
  | _, part :: path => do
    let rt ← Traced.get
    match rt.scopeOf scope part with
    | none => Traced.fail s!"Could not get scope of {part}"
    | some newScope => importScope scope newScope path

/-- `Rt::declare_import`. -/
def declareImport (scope : ScopeRef) : List (List Identifier) → Reg Unit
  | [] => pure ()
  | path :: imports => do
    let last ← Traced.unwrap path.getLast?
    let newScope ← importScope scope scope path.dropLast
    insertImport scope ⟨newScope, last⟩
    declareImport scope imports

/-! ### Libraries -/

/-- One round of the loop of `declare_methods`. -/
def declareMethod (scope : ScopeRef) : Item ids → Reg Unit
  | .function f => declareFunction ids scope f true
  | .impl _ _ => Traced.fail "Cannot nest an impl in an impl"
  | .type _ => Traced.fail "Cannot nest a type in an impl"
  | .module _ _ => Traced.fail "Cannot nest a module in an impl"
  | .use _ => pure ()
  | .constant _ => pure ()

def declareMethods (scope : ScopeRef) : List (Item ids) → Reg Unit
  | [] => pure ()
  | item :: items => do
    declareMethod ids scope item
    declareMethods scope items

mutual

/-- One round of the loop of `declare_modules`. -/
def declareModulesOf (scope : Option ScopeRef) : Item ids → Reg Unit
  | .module ident children => do
    let modScope ← declareRuntimeModule scope ident
    declareModules (some modScope) children
  | _ => pure ()

def declareModules (scope : Option ScopeRef) : List (Item ids) → Reg Unit
  | [] => pure ()
  | item :: items => do
    declareModulesOf scope item
    declareModules scope items

end

mutual

/-- One round of the loop of `declare_types`. -/
def declareTypesOf (scope : ScopeRef) : Item ids → Reg Unit
  | .module ident children => do
    let rt ← Traced.get
    let inner ← Traced.unwrap (rt.scopeOf scope ident)
    declareTypes inner children
  | .type ty => declareType ids scope ty
  | _ => pure ()

def declareTypes (scope : ScopeRef) : List (Item ids) → Reg Unit
  | [] => pure ()
  | item :: items => do
    declareTypesOf scope item
    declareTypes scope items

end

mutual

/-- One round of the loop of `declare_functions`. -/
def declareFunctionsOf (scope : ScopeRef) : Item ids → Reg Unit
  | .module ident children => do
    let rt ← Traced.get
    let inner ← Traced.unwrap (rt.scopeOf scope ident)
    declareFunctions inner children
  | .function f => declareFunction ids scope f false
  | .impl ty children => do
    let inner ← implScope ty
    declareMethods ids inner children
  | _ => pure ()

def declareFunctions (scope : ScopeRef) : List (Item ids) → Reg Unit
  | [] => pure ()
  | item :: items => do
    declareFunctionsOf scope item
    declareFunctions scope items

end

mutual

/-- One round of the loop of `declare_constants`. -/
def declareConstantsOf (scope : ScopeRef) : Item ids → Reg Unit
  | .module ident children => do
    let rt ← Traced.get
    let inner ← Traced.unwrap (rt.scopeOf scope ident)
    declareConstants inner children
  | .impl ty children => do
    let inner ← implScope ty
    declareConstants inner children
  | .constant c => declareConstant ids scope c
  | _ => pure ()

def declareConstants (scope : ScopeRef) : List (Item ids) → Reg Unit
  | [] => pure ()
  | item :: items => do
    declareConstantsOf scope item
    declareConstants scope items

end

mutual

/-- One round of the loop of `declare_imports`. Imports of a module are made in the scope around
it. -/
def declareImportsOf (scope : ScopeRef) : Item ids → Reg Unit
  | .use imports => declareImport scope imports
  | .module _ children => declareImports scope children
  | _ => pure ()

def declareImports (scope : ScopeRef) : List (Item ids) → Reg Unit
  | [] => pure ()
  | item :: items => do
    declareImportsOf scope item
    declareImports scope items

end

/-- `Rt::add`. -/
def add (items : List (Item ids)) : Reg Unit := do
  declareModules ids none items
  declareTypes ids ScopeRef.GLOBAL items
  declareFunctions ids ScopeRef.GLOBAL items
  declareConstants ids ScopeRef.GLOBAL items
  declareImports ids ScopeRef.GLOBAL items

/-- One call of `add` after the other, whether it succeeds or not. -/
def addAll : List (List (Item ids)) → Rt → Option (Rt × List Call)
  | [], rt => some (rt, [])
  | lib :: libs, rt =>
    match (add ids lib).run rt with
    | none => none
    | some (_, rt, calls) =>
      match addAll libs rt with
      | none => none
      | some (rt, calls') => some (rt, calls ++ calls')

end Roto.Runtime
