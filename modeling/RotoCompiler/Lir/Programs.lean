import RotoCompiler.Lir.EmittedCalls
import RotoCompiler.Lir.RuntimeCallAgreement

/-!
# Calls in a program

What it means that the calls of a program in the LIR are closed, and what a program in the MIR
looks like that comes from the type checker.
-/

namespace Roto.Lir
open Mir TypeChecker Roto.Value

/-! ### Closed programs in the LIR -/

/-- The functions that an instruction names. -/
def Instruction.names : Instruction → List FunName
  | .call _ _ func _ _ => [func]
  | .functionAddress _ func => [func]
  | _ => []

/-- The types of named parameters in a scope. -/
def paramTypes (scope : ScopeRef) (params : List (Identifier × IrType)) (v : Var) :
    Option IrType :=
  (params.find? fun p => v = ⟨scope, .explicit p.1⟩).map (·.2)

namespace AnyItem

def instructions (f : AnyItem) : List Instruction := f.blocks.flatMap Block.instructions

/-- The functions that an item names. `codegen` looks up the function that drops a constant. -/
def names (f : AnyItem) : List FunName :=
  match f with
  | function _ => f.instructions.flatMap Instruction.names
  | constant c => .generatedDrop c.ty :: f.instructions.flatMap Instruction.names

/-- The types of the parameters, which are declared with the variables. -/
def param : AnyItem → Var → Option IrType
  | function f => paramTypes f.scope f.irSignature.parameters
  | constant _ => fun _ => none

def type (f : AnyItem) (op : Operand) : Option IrType := operandType f.param f.vars op

def asFunction : AnyItem → Option Item
  | function f => some f
  | constant _ => none

end AnyItem

def LirProgram.functionItems (L : LirProgram) : List Item := L.functions.filterMap AnyItem.asFunction

/-- Every function that is named is exactly one function of the program, calls pass what its
signature asks for, and calls of registered functions what is recorded for them. -/
structure LirProgram.CallsClosed (L : LirProgram) : Prop where
  names : ∀ f ∈ L.functions, ∀ name ∈ f.names,
    (L.functionItems.filter fun g => g.name = name).length = 1
  calls : ∀ f ∈ L.functions, ∀ dest ctx func args returnPtr,
    .call dest ctx func args returnPtr ∈ f.instructions → ∀ g ∈ L.functionItems, g.name = func →
      Passes f.type dest ctx args returnPtr g.irSignature
  runtime : ∀ f ∈ L.functions, ∀ func args, .callRuntime func args ∈ f.instructions →
    ∃ sig, L.runtimeFunctions.lookup func = some sig ∧
      args.map f.type = sig.parameters.map fun p => some p.2

end Roto.Lir

/-! ### Items of the MIR -/

namespace Roto.Mir.Item

def instructions (item : Item) : List Instruction := item.blocks.flatMap Block.instructions

def parameterTypes (item : Item) : List Ty :=
  match item.ty with
  | .constant _ _ => []
  | .function _ sig => sig.parameterTypes

def isFunction (item : Item) : Bool :=
  match item.ty with
  | .constant _ _ => false
  | .function _ _ => true

/-- All parameters have values. Only then is an item lowered. -/
def inhabited (rt : Rt) (item : Item) : Bool := (layoutsOf rt item.parameterTypes).isSome

/-- The type in the LIR that a variable is declared with, if it is. -/
def irType (rt : Rt) (item : Item) (v : Var) : Option Lir.IrType :=
  (item.vars.lookup v).bind (Lir.lowerType rt)

end Roto.Mir.Item

namespace Roto.Lir
open Mir TypeChecker Roto.Value

/-! ### What calls hand over -/

variable (rt : Rt)

/-- The variable of a place in memory, if it is handed over without an offset. -/
def placeBase (place : Place) (ty : Ty) : List (Mir.Var × IrType) :=
  match location rt place ty with
  | some (some (.pointer _ off)) => if asU32 off = 0 then [(place.var, .pointer)] else []
  | _ => []

def inMemory (place : Place) (ty : Ty) : Bool :=
  match location rt place ty with
  | some (some l) => l.isPointer
  | _ => false

/-- The arguments of a registered function that are handed over by value. -/
def byValueArgs (dynVals : List Bool) (args : List Mir.Var) (tys : List Ty) :
    List (Mir.Var × IrType) :=
  (dynVals.zip (args.zip tys)).filterMap fun p =>
    if p.1 then none else (lowerType rt p.2.2).map fun irTy => (p.2.1, irTy)

/-- The variables that an instruction hands over as they are, to a function that is generated
or to a registered one, and the types that are expected of them. -/
def handedOver (dynVals : ℕ → List Bool) : Mir.Instruction → List (Mir.Var × IrType)
  | .drop val ty => if generatesDrop rt ty then placeBase rt val ty else []
  | .assign dest ty (.clone src) =>
    if generatesClone rt ty ∧ inMemory rt dest ty ∧ inMemory rt src ty then
      placeBase rt dest ty ++ placeBase rt src ty
    else []
  | .assign dest ty (.constant _ constTy) =>
    if generatesClone rt constTy then placeBase rt dest ty else []
  | .assign dest ty (.context _) => if generatesClone rt ty then placeBase rt dest ty else []
  | .assign _ _ (.binOp left op ty right) =>
    if (op = .eq ∨ op = .ne) ∧ generatesEq rt ty then [(left, .pointer), (right, .pointer)] else []
  | .assign _ _ (.callRuntime func args _ sig) =>
    byValueArgs rt (dynVals func) args sig.parameterTypes
  | _ => []

/-! ### Checked programs -/

variable (env : LowerEnv) (R : Registry) (uf : UnionFind)

/-- An item as the lowering to the MIR leaves it. Arguments of functions are variables of
their own. An argument of a registered function may also be the value of a block that
diverges, which is declared with the type `()`. -/
structure CheckedItem (registered : ℕ → RuntimeFunction) (items : List Mir.Item)
    (item : Mir.Item) : Prop where
  vars : ∀ v t u, (v, t) ∈ item.vars → (v, u) ∈ item.vars → t = u
  tmps : ∀ p ∈ item.vars, ∀ k, p.1.kind = .tmp k → k < item.tmpIdx
  handedTmps : ∀ i ∈ item.instructions, ∀ p ∈ handedOver env.rt env.dynVals i, ∀ k,
    p.1.kind = .tmp k → k < item.tmpIdx
  parameters : ∀ params sig, item.ty = .function params sig →
    params.length = sig.parameterTypes.length ∧
      ∀ p ∈ params.zip sig.parameterTypes, p ∈ item.vars ∧ ∃ x, p.1 = ⟨item.scope, .explicit x⟩
  calls : ∀ dest ty func args sig, .assign dest ty (.call func args sig) ∈ item.instructions →
    (∃ callee ∈ items, ∃ params,
        callee.name = env.fullName func ∧ callee.ty = .function params sig) ∧
      args.length = sig.parameterTypes.length ∧ ∀ p ∈ args.zip sig.parameterTypes, p ∈ item.vars
  runtimeCalls : ∀ dest ty func args vtables sig,
    .assign dest ty (.callRuntime func args vtables sig) ∈ item.instructions →
      (Registered R (registered func) ∧ env.dynVals func = (registered func).dynVals ∧
        ∃ c : RuntimeCall R uf (registered func),
          c.args = args ∧ c.vtables = vtables ∧ c.mirSignature = sig) ∧
      ∀ p ∈ args.zip sig.parameterTypes,
        item.irType env.rt p.1 = none ∨ item.irType env.rt p.1 = lowerType env.rt p.2

/-- A program as the lowering to the MIR leaves it. -/
structure CheckedProgram where
  items : List Mir.Item
  registered : ℕ → RuntimeFunction
  checked : ∀ item ∈ items, CheckedItem env R uf registered items item

/-! ### When calls are closed -/

variable {env R uf}

/-- The functions with a full name that are lowered. -/
def CheckedProgram.lowered (P : CheckedProgram env R uf) (name : Identifier) : List Mir.Item :=
  P.items.filter fun m => m.isFunction && m.inhabited env.rt && m.name = name

/-- The signature in the LIR that a call is made with, in which the parameters have no names. -/
def callSignature (rt : Rt) (sig : Mir.Signature) : Signature :=
  let (returnType, returnPtr) := match isReferenceType rt sig.returnType with
    | some true => (none, true)
    | some false => (lowerType rt sig.returnType, false)
    | none => (none, false)
  ⟨(sig.parameterTypes.filterMap (lowerType rt)).map fun ty => ("", ty), true, returnPtr,
    returnType⟩

/-- The calls of the items that are lowered: the name in each is that of one function that is
lowered, which has the signature of the call, those of a registered function pass values of the
same `DynVal`s, and what they hand over is declared. -/
structure CheckedProgram.Callable (P : CheckedProgram env R uf) : Prop where
  callees : ∀ item ∈ P.items, item.inhabited env.rt → ∀ dest ty func args sig,
    .assign dest ty (.call func args sig) ∈ item.instructions →
      (P.lowered (env.fullName func)).length = 1 ∧
      ∀ callee ∈ P.lowered (env.fullName func), ∀ params sig', callee.ty = .function params sig' →
        callSignature env.rt sig' = callSignature env.rt sig
  agree : ∀ item ∈ P.items, item.inhabited env.rt → ∀ item' ∈ P.items, item'.inhabited env.rt →
    ∀ dest ty func args vtables sig dest' ty' args' vtables' sig',
      .assign dest ty (.callRuntime func args vtables sig) ∈ item.instructions →
      .assign dest' ty' (.callRuntime func args' vtables' sig') ∈ item'.instructions →
      ∀ p ∈ (env.dynVals func).zip (sig.parameterTypes.zip sig'.parameterTypes), p.1 = true →
        (layoutOf env.rt p.2.1).isSome = (layoutOf env.rt p.2.2).isSome
  declared : ∀ item ∈ P.items, item.inhabited env.rt → ∀ i ∈ item.instructions,
    ∀ p ∈ handedOver env.rt env.dynVals i, item.irType env.rt p.1 = some p.2

end Roto.Lir
