import RotoCompiler.Mir.Layout
import RotoCompiler.TypeChecker.Convert
import RotoCompiler.TypeChecker.Info

/-!
# Rust types at the boundary (value/mod.rs, runtime/func.rs, codegen/check.rs)

The types that implement `Value`, how they are passed as parameters, and how they are
checked against types of a script. In error values the types themselves stand for their
printed names.
-/

namespace Roto

/-- The name of a primitive in a script. -/
def Primitive.ident : Primitive → Identifier
  | .int .unsigned .i8 => "u8"
  | .int .unsigned .i16 => "u16"
  | .int .unsigned .i32 => "u32"
  | .int .unsigned .i64 => "u64"
  | .int .signed .i8 => "i8"
  | .int .signed .i16 => "i16"
  | .int .signed .i32 => "i32"
  | .int .signed .i64 => "i64"
  | .float .f32 => "f32"
  | .float .f64 => "f64"
  | .bool => "bool"
  | .char => "char"
  | .string => "String"
  | .asn => "Asn"
  | .ipAddr => "IpAddr"
  | .ipPrefix => "Prefix"

namespace Value
open TypeChecker

/-- The types with an instance of `Value`. A leaf is one of the types of this crate that are
passed by pointer and are no primitives, such as `StringBytes`. -/
inductive RustTy where
  | unit
  | primitive (p : Primitive)
  | leaf (typeId : ℕ)
  | val (typeId : ℕ)
  | dynVal
  | vtable
  | erasedList
  | option (t : RustTy)
  | result (t e : RustTy)
  | verdict (a r : RustTy)
  | list (t : RustTy)
  deriving DecidableEq, Repr

/-- The id of a type that is known by being registered. -/
def RustTy.registered : RustTy → Option ℕ
  | .leaf id => some id
  | .val id => some id
  | _ => none

/-- The kinds of parameters that the machine code tells apart. -/
inductive Kind where
  | i8 | i16 | i32 | i64 | f32 | f64 | pointer
  deriving DecidableEq, Repr

/-- The primitives that are passed by value; the others are passed by pointer. -/
def byValue : Primitive → Option Kind
  | .int _ .i8 => some .i8
  | .int _ .i16 => some .i16
  | .int _ .i32 => some .i32
  | .int _ .i64 => some .i64
  | .float .f32 => some .f32
  | .float .f64 => some .f64
  | .bool => some .i8
  | .char => some .i32
  | .asn => some .i32
  | .string => none
  | .ipAddr => none
  | .ipPrefix => none

/-- The machine parameter of `Value::AsParam`: `()` takes none, and a `*mut T` takes one
whatever `T` is. -/
def RustTy.asParam : RustTy → Option Kind
  | .unit => none
  | .primitive p => some ((byValue p).getD .pointer)
  | _ => some .pointer

/-- What a function that returns `Value::Transformed` directly returns. -/
inductive Returned where
  | nothing
  | scalar (k : Kind)
  | aggregate
  deriving DecidableEq, Repr

def RustTy.returned (rt : Mir.Rt) : RustTy → Returned
  | .unit => .nothing
  | .primitive p => (byValue p).elim .aggregate .scalar
  | .leaf typeId => if (rt.runtimeType typeId).layout.size = 0 then .nothing else .aggregate
  | .val typeId => if (rt.runtimeType typeId).layout.size = 0 then .nothing else .aggregate
  | .dynVal => .scalar .pointer
  | _ => .aggregate

/-- A signature of machine code. -/
structure MachineSignature where
  params : List Kind
  returned : Returned
  deriving DecidableEq, Repr

/-- What the registration of types leaves behind: the declared types, with the built-in
ones among them, and the names of the registered types. A registered type is declared
under its name, unless it has the name of a primitive or of `List`. -/
structure Registry extends Declarations where
  typeName : ℕ → Option ResolvedName
  primitive : ∀ p : Primitive,
    types.resolveTypeName ⟨ScopeRef.GLOBAL, p.ident⟩ = some (.primitive p)
  option : types.resolveTypeName ⟨ScopeRef.GLOBAL, "Option"⟩ =
    some (.enum ⟨⟨ScopeRef.GLOBAL, "Option"⟩, [.explicitVar "T"]⟩
      [⟨"Some", [.explicitVar "T"]⟩, ⟨"None", []⟩])
  verdict : types.resolveTypeName ⟨ScopeRef.GLOBAL, "Verdict"⟩ =
    some (.enum ⟨⟨ScopeRef.GLOBAL, "Verdict"⟩, [.explicitVar "A", .explicitVar "R"]⟩
      [⟨"Accept", [.explicitVar "A"]⟩, ⟨"Reject", [.explicitVar "R"]⟩])
  result : types.resolveTypeName ⟨ScopeRef.GLOBAL, "Result"⟩ =
    some (.enum ⟨⟨ScopeRef.GLOBAL, "Result"⟩, [.explicitVar "T", .explicitVar "E"]⟩
      [⟨"Ok", [.explicitVar "T"]⟩, ⟨"Err", [.explicitVar "E"]⟩])
  list : types.resolveTypeName ⟨ScopeRef.GLOBAL, "List"⟩ =
    some (.list ⟨⟨ScopeRef.GLOBAL, "List"⟩, [.explicitVar "T"]⟩)
  registered : ∀ typeId n d, typeName typeId = some n → types.resolveTypeName n = some d →
    d = .runtime n typeId ∨ (∃ p, d = .primitive p) ∨ ∃ tn, d = .list tn

/-- `TypeChecker::rust_type_to_roto_type`; `none` is the error about an unregistered type. -/
def rustTypeToRotoType (R : Registry) : RustTy → Option Typ
  | .unit => some .unit
  | .primitive p => some (.named p.ident [])
  | .leaf typeId => (R.typeName typeId).map fun n => .name n []
  | .val typeId => (R.typeName typeId).map fun n => .name n []
  | .dynVal => none
  | .vtable => none
  | .erasedList => some (.named "List" [])
  | .option t => do return .option (← rustTypeToRotoType R t)
  | .result t e => do
    let t ← rustTypeToRotoType R t
    let e ← rustTypeToRotoType R e
    return .named "Result" [t, e]
  | .verdict a r => do
    let a ← rustTypeToRotoType R a
    let r ← rustTypeToRotoType R r
    return .verdict a r
  | .list t => do return .list (← rustTypeToRotoType R t)

structure TypeMismatch where
  rustType : RustTy
  rotoType : Typ
  deriving DecidableEq

/-- A check's answer, with `none` for a panic, and the store it leaves behind. -/
abbrev CheckResult := Option (Except TypeMismatch Unit × UnionFind)

def CheckResult.of (b : Bool) (e : TypeMismatch) (uf : UnionFind) : CheckResult :=
  some (if b then .ok () else .error e, uf)

/-- The second check only runs after the first one succeeded. -/
def CheckResult.andThen (r : CheckResult) (k : UnionFind → CheckResult) : CheckResult :=
  match r with
  | some (.ok (), uf) => k uf
  | r => r

/-- A number literal without a type of its own gets the default type. -/
def defaulted : Typ → Typ
  | .intVar _ _ => .named "i32" []
  | .floatVar _ => .named "f64" []
  | r => r

/-- The argument of a built-in type with one argument. -/
def checkOne (ident : Identifier) (rotoType : Typ) (e : TypeMismatch) (uf : UnionFind)
    (check : Typ → CheckResult) : CheckResult :=
  match rotoType with
  | .name n [a] => if n = ⟨ScopeRef.GLOBAL, ident⟩ then check a else some (.error e, uf)
  | _ => some (.error e, uf)

/-- The arguments of a built-in type with two arguments. -/
def checkTwo (ident : Identifier) (rotoType : Typ) (e : TypeMismatch) (uf : UnionFind)
    (check : Typ → Typ → CheckResult) : CheckResult :=
  match rotoType with
  | .name n [a, b] => if n = ⟨ScopeRef.GLOBAL, ident⟩ then check a b else some (.error e, uf)
  | _ => some (.error e, uf)

/-- `check_roto_type`. -/
def checkRotoType (types : TypeMap) (fuel : ℕ) : RustTy → UnionFind → Typ → CheckResult
  | τ, uf, t =>
    match uf.resolve fuel t with
    | none => none
    | some (resolved, uf) =>
      let errorMessage : TypeMismatch := ⟨τ, t⟩
      let rotoType := defaulted resolved
      match τ with
      | .unit => .of (rotoType = .unit) errorMessage uf
      | .primitive p => .of (rotoType = .named p.ident []) errorMessage uf
      | .leaf _ | .dynVal | .vtable | .erasedList => none
      | .val typeId =>
        match rotoType with
        | .name n _ =>
          match types.resolveTypeName n with
          | none => none
          | some (.runtime _ id) => .of (typeId = id) errorMessage uf
          | some _ => some (.error errorMessage, uf)
        | _ => some (.error errorMessage, uf)
      | .verdict rustAccept rustReject =>
        checkTwo "Verdict" rotoType errorMessage uf fun rotoAccept rotoReject =>
          (checkRotoType types fuel rustAccept uf rotoAccept).andThen fun uf =>
            checkRotoType types fuel rustReject uf rotoReject
      | .result rustOk rustErr =>
        checkTwo "Result" rotoType errorMessage uf fun rotoOk rotoErr =>
          (checkRotoType types fuel rustOk uf rotoOk).andThen fun uf =>
            checkRotoType types fuel rustErr uf rotoErr
      | .option rustType =>
        checkOne "Option" rotoType errorMessage uf (checkRotoType types fuel rustType uf)
      | .list rustType =>
        checkOne "List" rotoType errorMessage uf (checkRotoType types fuel rustType uf)

end Value

end Roto
