import RotoCompiler.Lir.Lowerer
import RotoCompiler.Value.Boundary
import RotoCompiler.TypeChecker.UnifyRun

/-!
# Functions at the Rust boundary (lir/lower.rs, codegen/mod.rs, codegen/check.rs, runtime)

The signature that a Roto function gets, how it is retrieved and called from Rust, and the
registered Rust functions with the parameters of their trampolines.
-/

namespace Roto.Lir
open Mir TypeChecker Roto.Value

/-- `cranelift_type`. -/
def kind : IrType → Kind
  | .bool | .u8 | .i8 => .i8
  | .u16 | .i16 => .i16
  | .u32 | .i32 | .asn | .char => .i32
  | .u64 | .i64 => .i64
  | .f32 => .f32
  | .f64 => .f64
  | .pointer => .pointer

variable (rt : Rt)

/-- A type converts to a MIR type, at some time after the type checker is done. -/
def ConvertsTo (types : TypeMap) (uf : UnionFind) (t : Typ) (ty : Ty) : Prop :=
  ∃ fuel uf₁ uf₂, uf.Compressed uf₁ ∧ convert types fuel uf₁ t = some (some ty, uf₂)

/-! ### Roto functions -/

/-- A function as `function_like` leaves it in the MIR. -/
structure LoweredFunction (R : Registry) (uf : UnionFind) where
  parameters : List Mir.Var
  signature : TypeChecker.Signature
  mirSignature : Mir.Signature
  known : ∀ t ∈ signature.parameterTypes, uf.Known R.types t
  known_return : uf.Known R.types signature.returnType
  converted : List.Forall₂ (ConvertsTo R.types uf) signature.parameterTypes
    mirSignature.parameterTypes
  converted_return : ConvertsTo R.types uf signature.returnType mirSignature.returnType
  length_parameters : parameters.length = mirSignature.parameterTypes.length

/-- The parameters of the signature in `item`; `none` is the `ice!`. -/
def itemParameters : List (Mir.Var × Ty) → Option (List (Identifier × IrType))
  | [] => some []
  | (var, ty) :: params =>
    match lowerType rt ty with
    | none => itemParameters params
    | some irTy =>
      match var.kind with
      | .explicit x => (itemParameters params).map fun ps => (x, irTy) :: ps
      | .tmp _ => none

/-- The signature in `item` of a function. The inner `none` is a function with a parameter
that has no values, which is not lowered. -/
def itemSignature (parameters : List Mir.Var) (mirSignature : Mir.Signature) :
    Option (Option Signature) :=
  if (layoutsOf rt mirSignature.parameterTypes).isNone then some none
  else do
    let params ← itemParameters rt (parameters.zip mirSignature.parameterTypes)
    let (returnType, returnPtr) := match isReferenceType rt mirSignature.returnType with
      | some true => (none, true)
      | some false => (lowerType rt mirSignature.returnType, false)
      | none => (none, false)
    return some ⟨params, true, returnPtr, returnType⟩

structure FunctionInfo where
  signature : Option TypeChecker.Signature
  returnByRef : Bool
  machine : MachineSignature

/-- `declare_function`. -/
def declareFunction (signature : Option TypeChecker.Signature) (ir : Signature) : FunctionInfo where
  signature := signature
  returnByRef := ir.returnPtr
  machine :=
    { params := (if ir.returnPtr then [.pointer] else []) ++
        (if ir.context then [.pointer] else []) ++ ir.parameters.map fun p => kind p.2
      returned := ir.returnType.elim .nothing fun ty => .scalar (kind ty) }

/-- A function type `fn(A1, ..) -> R` on the Rust side. -/
structure RotoFunc where
  args : List RustTy
  ret : RustTy
  deriving DecidableEq

/-- The type of the function pointer that `invoke` casts to. -/
def RotoFunc.invoked (F : RotoFunc) (returnByRef : Bool) : MachineSignature :=
  if returnByRef then ⟨.pointer :: .pointer :: F.args.filterMap RustTy.asParam, .nothing⟩
  else ⟨.pointer :: F.args.filterMap RustTy.asParam, F.ret.returned rt⟩

inductive FunctionRetrievalError where
  | doesNotExist (name : String) (existing : List String)
  | incorrectNumberOfArguments (expected got : ℕ)
  | typeMismatch (ctx : String) (e : TypeMismatch)
  deriving DecidableEq

/-- An answer or a panic, and the store that is left behind. -/
abbrev Retrieval (α : Type) := Option (Except FunctionRetrievalError α × UnionFind)

/-- `check_roto_type_reflect`, with its error put into context. -/
def checkIn (types : TypeMap) (fuel : ℕ) (ctx : String) (τ : RustTy) (uf : UnionFind) (t : Typ) :
    Retrieval Unit :=
  match checkRotoType types fuel τ uf t with
  | none => none
  | some (.ok (), uf) => some (.ok (), uf)
  | some (.error e, uf) => some (.error (.typeMismatch ctx e), uf)

/-- The checks of `check_args`, one argument after the other. -/
def checkEach (types : TypeMap) (fuel : ℕ) : ℕ → List (RustTy × Typ) → UnionFind → Retrieval Unit
  | _, [], uf => some (.ok (), uf)
  | i, (τ, t) :: rest, uf =>
    match checkIn types fuel s!"argument {i + 1}" τ uf t with
    | some (.ok (), uf) => checkEach types fuel (i + 1) rest uf
    | r => r

def RotoFunc.checkArgs (F : RotoFunc) (types : TypeMap) (fuel : ℕ) (uf : UnionFind)
    (ty : List Typ) : Retrieval Unit :=
  if F.args.length ≠ ty.length then
    some (.error (.incorrectNumberOfArguments ty.length F.args.length), uf)
  else checkEach types fuel 0 (F.args.zip ty) uf

/-- `get_function`; the function that is got is only known by how it returns. -/
def getFunction (types : TypeMap) (fuel : ℕ) (functions : List (String × FunctionInfo))
    (uf : UnionFind) (name : String) (F : RotoFunc) : Retrieval Bool :=
  let name := s!"pkg.{name}"
  let notThere : FunctionRetrievalError := .doesNotExist name (functions.map (·.1))
  match functions.lookup name with
  | none => some (.error notThere, uf)
  | some info =>
    match info.signature with
    | none => some (.error notThere, uf)
    | some sig =>
      match F.checkArgs types fuel uf sig.parameterTypes with
      | none => none
      | some (.error e, uf) => some (.error e, uf)
      | some (.ok (), uf) =>
        match checkIn types fuel "the return value" F.ret uf sig.returnType with
        | none => none
        | some (.error e, uf) => some (.error e, uf)
        | some (.ok (), uf) => some (.ok info.returnByRef, uf)

/-! ### Registered functions -/

structure RuntimeFunction where
  parameterTypes : List RustTy
  returnType : RustTy
  signature : TypeChecker.Signature
  vtables : List ℕ

def RuntimeFunction.dynVals (f : RuntimeFunction) : List Bool :=
  f.parameterTypes.map fun τ => τ = .dynVal

/-- The parameters of the trampoline after the function pointer: the out pointer and the
parameters of the function. -/
def RuntimeFunction.trampoline (f : RuntimeFunction) : List Kind :=
  .pointer :: f.parameterTypes.filterMap RustTy.asParam

/-- A method of `List`, with the signature that it is given. -/
def listMethod (vtables : List ℕ) (rust : List RustTy) (rustReturn : RustTy) (params : List Typ)
    (ret : Typ) : RuntimeFunction :=
  ⟨rust, rustReturn, ⟨[.explicitVar "T"], params, ret⟩, vtables⟩

/-- The functions with a signature of their own: the methods of `List`. -/
def listFunctions : List RuntimeFunction :=
  let T : Typ := .explicitVar "T"
  let u64 : Typ := .named "u64" []
  let rustU64 : RustTy := .primitive (.int .unsigned .i64)
  [listMethod [0] [.vtable] .erasedList [] (.list T),
    listMethod [] [.erasedList, .dynVal] .unit [.list T, T] .unit,
    listMethod [] [.erasedList, .dynVal] (.primitive .bool) [.list T, T] .bool,
    listMethod [] [.erasedList, .dynVal] (.option rustU64) [.list T, T] (.option u64),
    listMethod [] [.erasedList, .erasedList] .erasedList [.list T, .list T] (.list T),
    listMethod [] [.erasedList, rustU64] .dynVal [.list T, u64] (.option T),
    listMethod [] [.erasedList, rustU64, rustU64] .unit [.list T, u64, u64] .unit,
    listMethod [] [.erasedList] rustU64 [.list T] u64,
    listMethod [] [.erasedList] rustU64 [.list T] u64,
    listMethod [] [.erasedList] (.primitive .bool) [.list T] .bool,
    ⟨[.erasedList, .primitive .string], .primitive .string,
      ⟨[], [.list .string, .string], .string⟩, []⟩]

/-- `declare_function` of the runtime: without a signature of its own a function gets the
one that its Rust types give. -/
inductive Registered (R : Registry) : RuntimeFunction → Prop where
  | inferred {rust : List RustTy} {rustReturn : RustTy} {params : List Typ} {ret : Typ}
      (hparams : rust.mapM (rustTypeToRotoType R) = some params)
      (hret : rustTypeToRotoType R rustReturn = some ret) :
      Registered R ⟨rust, rustReturn, ⟨[], params, ret⟩, []⟩
  | generic {f : RuntimeFunction} (hf : f ∈ listFunctions) : Registered R f

/-- A call of a registered function in the MIR. Its signature is the registered one at some
types for the type parameters, and there is a v-table for each that is requested. -/
structure RuntimeCall (R : Registry) (uf : UnionFind) (f : RuntimeFunction) where
  typeArgs : List Typ
  args : List Mir.Var
  vtables : List Ty
  mirSignature : Mir.Signature
  converted : List.Forall₂
    (fun t ty => ConvertsTo R.types uf (t.substituteMany (f.signature.types.zip typeArgs)) ty)
    f.signature.parameterTypes mirSignature.parameterTypes
  length_typeArgs : typeArgs.length = f.signature.types.length
  length_args : args.length = mirSignature.parameterTypes.length
  length_vtables : vtables.length = f.vtables.length

end Roto.Lir
