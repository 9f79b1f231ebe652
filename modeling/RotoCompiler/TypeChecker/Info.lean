import RotoCompiler.Mir.Ty

/-!
# What the type checker records (typechecker/info.rs)

The tables of `TypeInfo` that lowering reads, as functions from ids. `type_of` resolves
what it reads, so `typeOf` gives resolved types, and `convert` is the function of
`TypeInfo::convert` on types where it returns.
-/

namespace Roto.TypeChecker
open Mir

def Typ.named (ident : Identifier) (params : List Typ) : Typ :=
  .name ⟨ScopeRef.GLOBAL, ident⟩ params

def Typ.bool : Typ := .named "bool" []
def Typ.u8 : Typ := .named "u8" []
def Typ.string : Typ := .named "String" []
def Typ.ipAddr : Typ := .named "IpAddr" []
def Typ.ipPrefix : Typ := .named "Prefix" []
def Typ.verdict (a r : Typ) : Typ := .named "Verdict" [a, r]
def Typ.option (t : Typ) : Typ := .named "Option" [t]
def Typ.list (t : Typ) : Typ := .named "List" [t]

structure Signature where
  types : List Typ
  parameterTypes : List Typ
  returnType : Typ
  deriving DecidableEq, Repr

/-- `RuntimeFunctionRef` is an index into the runtime's functions. -/
inductive FunctionDefinition where
  | runtime (funcRef : ℕ)
  | roto
  deriving DecidableEq, Repr

structure Function where
  signature : Signature
  name : ResolvedName
  definition : FunctionDefinition
  deriving DecidableEq, Repr

inductive ValueKind where
  | local
  | constant
  | context (n : ℕ)
  deriving DecidableEq, Repr

structure PathValue where
  name : ResolvedName
  kind : ValueKind
  rootTy : Typ
  fields : List (Identifier × Typ)
  deriving DecidableEq, Repr

def PathValue.finalType (v : PathValue) : Typ :=
  v.fields.getLast?.elim v.rootTy Prod.snd

inductive ResolvedPath where
  | function (name : ResolvedName) (definition : FunctionDefinition) (signature : Signature)
  | method (value : PathValue) (name : ResolvedName) (definition : FunctionDefinition)
      (signature : Signature)
  | value (v : PathValue)
  | staticMethod (name : ResolvedName) (definition : FunctionDefinition)
      (signature : Signature)
  | enumConstructor (ty : TypeDefinition) (variant : EnumVariant)
  deriving DecidableEq, Repr

structure TypeInfo where
  types : TypeMap
  typeOf : MetaId → Typ
  resolvedName : MetaId → ResolvedName
  functionScope : MetaId → ScopeRef
  function : MetaId → Function
  pathKind : MetaId → ResolvedPath
  diverges : MetaId → Bool
  convert : Typ → Ty

/-- `TypeInfo::is_list_type`. -/
def TypeInfo.isListType (info : TypeInfo) : Typ → Bool
  | .name n _ => (info.types.resolveTypeName n).any TypeDefinition.isList
  | _ => false

end Roto.TypeChecker
