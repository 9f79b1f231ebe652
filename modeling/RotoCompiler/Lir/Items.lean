import RotoCompiler.Lir.Boundary
import RotoCompiler.Lir.Clones
import RotoCompiler.Lir.Eq
import RotoCompiler.Lir.Literals

/-!
# Lowering of MIR items (lir/lower.rs)

The instructions of the MIR one by one, then its items, and the program with the functions that
are generated at its end.
-/

namespace Roto.Lir
open Mir
open Ast (Literal BinOp)

/-- The runtime and the type checker, as the lowerer asks them, and what casts of constants
give. -/
structure LowerEnv where
  rt : Rt
  fullName : ResolvedName → Identifier
  dynVals : ℕ → List Bool
  addrBytes : ℕ → List UInt8
  f32Bits : ℕ → ℕ

variable (env : LowerEnv)

/-! ### Values -/

/-- `Lowerer::literal`. -/
def literal (lit : Literal) (ty : Ty) : Lower (Option Operand) :=
  match lit with
  | .string s => do
    let dest ← newStackSlot (env.rt.primitiveLayout .string)
    emit (.initString dest s)
    return some (.place dest)
  | .char c => return some (.value ⟨.char, c.toNat⟩)
  | .asn n => return some (.value ⟨.asn, n⟩)
  | .ipAddress addr => do
    let dest ← newStackSlot (env.rt.primitiveLayout .ipAddr)
    emit (.initializeBytes dest (env.addrBytes addr) (env.rt.primitiveLayout .ipAddr))
    return some (.place dest)
  | .integer x _ => do
    let v ← unwrap (integerLiteral x ty)
    return some (.value v)
  | .float bits _ =>
    match ty with
    | .primitive (.float .f32) => return some (.value ⟨.f32, env.f32Bits bits⟩)
    | .primitive (.float .f64) => return some (.value ⟨.f64, bits⟩)
    -- the `ice!`
    | _ => unwrap none
  | .bool b => return some (.value (.bool b))
  | .unit => return none

def binopToIntCmp (op : BinOp) (kind : IntKind) : Option IntCmp :=
  match op, kind with
  | .eq, _ => some .eq
  | .ne, _ => some .ne
  | .lt, .signed => some .slt
  | .le, .signed => some .sle
  | .gt, .signed => some .sgt
  | .ge, .signed => some .sge
  | .lt, .unsigned => some .ult
  | .le, .unsigned => some .ule
  | .gt, .unsigned => some .ugt
  | .ge, .unsigned => some .uge
  | _, _ => none

def binopToFloatCmp : BinOp → Option FloatCmp
  | .eq => some .eq
  | .ne => some .ne
  | .lt => some .lt
  | .le => some .le
  | .gt => some .gt
  | .ge => some .ge
  | _ => none

/-- The instruction for an operator on integers; `none` is the `ice!`. -/
def intArith (dest : Var) (left right : Operand) (signed : Bool) : BinOp → Option Instruction
  | .add => some (.add dest left right)
  | .sub => some (.sub dest left right)
  | .mul => some (.mul dest left right)
  | .div => some (.div dest signed left right)
  | .mod => some (.mod dest signed left right)
  | _ => none

def floatArith (dest : Var) (left right : Operand) : BinOp → Option Instruction
  | .add => some (.add dest left right)
  | .sub => some (.sub dest left right)
  | .mul => some (.mul dest left right)
  | .div => some (.fdiv dest left right)
  | _ => none

/-- The end of each arm of `binop`: an instruction into a new temporary. -/
def emitTmp (irTy : IrType) (instruction : Var → Option Instruction) : Lower Operand := do
  let dest ← newTmp irTy
  let i ← unwrap (instruction dest)
  emit i
  return .place dest

/-- `Lowerer::binop`. -/
def binop (left : Mir.Var) (op : BinOp) (ty : Ty) (right : Mir.Var) : Lower Operand :=
  let left : Operand := .place (lowerVar left)
  let right : Operand := .place (lowerVar right)
  if op = .eq then callEqOf env.rt false left right ty
  else if op = .ne then callEqOf env.rt true left right ty
  else
    match ty with
    | .primitive (.int kind _) =>
      match binopToIntCmp op kind with
      | some cmp => emitTmp .bool fun dest => some (.intCmp dest cmp left right)
      | none => do
        let irTy ← unwrap (lowerType env.rt ty)
        emitTmp irTy fun dest => intArith dest left right (kind = .signed) op
    | .primitive (.float _) =>
      match binopToFloatCmp op with
      | some cmp => emitTmp .bool fun dest => some (.floatCmp dest cmp left right)
      | none => do
        let irTy ← unwrap (lowerType env.rt ty)
        emitTmp irTy fun dest => floatArith dest left right op
    | .primitive .asn => do
      let cmp ← unwrap (binopToIntCmp op .unsigned)
      emitTmp .bool fun dest => some (.intCmp dest cmp left right)
    | _ => unwrap none

/-- Where the result of a call goes, a register or the memory behind an out pointer. -/
def callResult (returnType : Ty) : Lower (Option (Var × IrType) × Option Var) :=
  match isReferenceType env.rt returnType with
  | some true => do
    let l ← unwrap (layoutOf env.rt returnType)
    let outPtr ← newStackSlot l
    return (none, some outPtr)
  | some false =>
    match lowerType env.rt returnType with
    | none => return (none, none)
    | some irTy => do
      let tmp ← newTmp irTy
      return (some (tmp, irTy), none)
  | none => return (none, none)

/-- The arguments that are passed: zero-sized and uninhabited ones are left out. -/
def passedArgs (args : List (Mir.Var × Ty)) : List Operand :=
  (args.filter fun a => (layoutOf env.rt a.2).any fun l => !l.isZeroSized).map
    fun a => .place (lowerVar a.1)

/-- `Lowerer::call`. -/
def call (func : ResolvedName) (args : List Mir.Var) (mirSignature : Mir.Signature) :
    Lower (Option Operand) := do
  let (dest, outPtr) ← callResult env mirSignature.returnType
  let s ← get
  emit (.call dest (some (.place ⟨s.functionScope, .context⟩)) (.item (env.fullName func))
    (passedArgs env (args.zip mirSignature.parameterTypes)) outPtr)
  return (outPtr.or (dest.map (·.1))).map .place

/-- A clone into the place that is assigned to, which is not there for an uninhabited type. -/
def cloneInto (dest : Option Location) (src : Location) (ty : Ty) : Lower Unit :=
  match dest with
  | some dest => callCloneOf env.rt dest src ty
  | none => return

/-- The arms of `Lowerer::assign`. There is an operand if it remains to be moved. -/
def assignValue (dest : Option Location) (ty : Ty) : Mir.Value → Lower (Option Operand)
  | .const lit ty => literal env lit ty
  | .constant name ty => do
    let ptrVar ← newTmp .pointer
    emit (.constantAddress ptrVar name)
    cloneInto env dest (.pointer ptrVar 0) ty
    return none
  | .context x => do
    let s ← get
    cloneInto env dest (.pointer ⟨s.functionScope, .context⟩ x) ty
    return none
  | .discriminant v => do
    let op ← readTmp (lowerVar v) .u8
    return some op
  | .not v => do
    let tmp ← newTmp .bool
    emit (.not tmp (.place (lowerVar v)))
    return some (.place tmp)
  | .negate v ty => do
    let op ← negate env.rt v ty
    return some op
  | .move v => return some (.place (lowerVar v))
  | .clone place => do
    let src ← unwrap (location env.rt place ty)
    match src with
    | none => return none
    | some src => do
      cloneInto env dest src ty
      return none
  | .binOp left op ty right => do
    let op ← binop env left op ty right
    return some op
  | .call func args mirSignature => call env func args mirSignature
  | .callRuntime funcRef args vtables mirSignature =>
    callRuntime env.rt funcRef (env.dynVals funcRef) args vtables mirSignature

/-! ### Instructions -/

/-- `Lowerer::assign`. -/
def assign (dest : Place) (ty : Ty) (value : Mir.Value) : Lower Unit := do
  let dest ← unwrap (location env.rt dest ty)
  let op ← assignValue env dest ty value
  match dest, op with
  | some dest, some op => moveVal env.rt dest op ty
  | _, _ => return

/-- `Lowerer::switch`. -/
def switch (examinee : Mir.Var) (branches : List (ℕ × LabelRef)) (default : Option LabelRef) :
    Lower Unit :=
  match default with
  | some default => emit (.switch (.place (lowerVar examinee)) branches default)
  | none => do
    let last ← unwrap branches.getLast?
    emit (.switch (.place (lowerVar examinee)) branches.dropLast last.2)

/-- `Lowerer::set_discriminant`. -/
def setDiscriminant (dest : Mir.Var) (ty : Ty) (variant : Identifier) : Lower Unit :=
  match ty with
  | .enum variants => do
    let idx ← unwrap (variants.findIdx? fun v => v.1 = variant)
    emit (.write (.place (lowerVar dest)) (.value ⟨.u8, idx % 2 ^ 8⟩))
  | _ => unwrap none

/-- `Lowerer::return`, with the fields of the lowerer that only it reads. -/
def lowerReturn (returnType : Ty) (forceReferenceReturn : Bool) (var : Mir.Var) : Lower Unit :=
  match layoutOf env.rt returnType with
  | none => emit (.ret none)
  | some l =>
    if l.isZeroSized then emit (.ret none)
    else do
      let isReference ← unwrap (isReferenceType env.rt returnType)
      let s ← get
      if isReference then do
        emit (.copy (.place ⟨s.functionScope, .ret⟩) (.place (lowerVar var)) (asU32 l.size))
        emit (.ret none)
      else if forceReferenceReturn then do
        emit (.write (.place ⟨s.functionScope, .ret⟩) (.place (lowerVar var)))
        emit (.ret none)
      else emit (.ret (some (.place (lowerVar var))))

/-- `Lowerer::drop`. -/
def drop (val : Place) (ty : Ty) : Lower Unit := do
  let place ← unwrap (location env.rt val ty)
  match place with
  | none => return
  | some (.var _) => return
  | some (.pointer base off) => do
    let op ← offset base (asU32 off)
    callDropOf env.rt (.place op) ty

/-- `Lowerer::instruction`. -/
def instruction (returnType : Ty) (forceReferenceReturn : Bool) : Mir.Instruction → Lower Unit
  | .assign dest ty value => assign env dest ty value
  | .jump lbl => emit (.jump lbl)
  | .switch examinee branches default => switch examinee branches default
  | .setDiscriminant dest ty variant => setDiscriminant dest ty variant
  | .ret var => lowerReturn env returnType forceReferenceReturn var
  | .drop val ty => drop env val ty

def instructions (returnType : Ty) (forceReferenceReturn : Bool) :
    List Mir.Instruction → Lower Unit
  | [] => return
  | i :: is => do
    instruction env returnType forceReferenceReturn i
    instructions returnType forceReferenceReturn is

/-- The blocks after the first one. -/
def blocks (returnType : Ty) (forceReferenceReturn : Bool) : List Mir.Block → Lower Unit
  | [] => return
  | b :: bs => do
    newBlock b.label
    instructions env returnType forceReferenceReturn b.instructions
    blocks returnType forceReferenceReturn bs

/-! ### Items -/

/-- `Item` of a constant. -/
structure ConstantItem where
  name : Identifier
  constant : ResolvedName
  layout : Option Layout
  ty : Ty
  scope : ScopeRef
  entryBlock : LabelRef
  vars : List (Var × ValueOrSlot)
  blocks : List Block

inductive AnyItem where
  | function (f : Item)
  | constant (c : ConstantItem)

namespace AnyItem

def name : AnyItem → FunName
  | function f => f.name
  | constant c => .item c.name

def vars : AnyItem → List (Var × ValueOrSlot)
  | function f => f.vars
  | constant c => c.vars

def blocks : AnyItem → List Block
  | function f => f.blocks
  | constant c => c.blocks

end AnyItem

/-- The variable of the LIR for one of the MIR. A parameter of a reference type already lives
somewhere. -/
def itemVar (parameters : List Mir.Var) (v : Mir.Var) (ty : Ty) : Option (Var × ValueOrSlot) :=
  match isReferenceType env.rt ty with
  | none => none
  | some true =>
    if v ∈ parameters then some (lowerVar v, .val .pointer)
    else (layoutOf env.rt ty).map fun l => (lowerVar v, .stackSlot l)
  | some false => (lowerType env.rt ty).map fun irTy => (lowerVar v, .val irTy)

/-- The lowerer of an item, with its first block pushed. -/
def LowerCtx.itemLowerer (ctx : LowerCtx) (item : Mir.Item) (label : LabelRef)
    (vars : List (Var × ValueOrSlot)) : Lowerer where
  blocks := []
  label := label
  instructions := []
  functionScope := item.scope
  tmpIdx := item.tmpIdx
  vars := vars
  labels := ctx.labels
  dropsToGenerate := ctx.dropsToGenerate
  clonesToGenerate := ctx.clonesToGenerate
  eqToGenerate := ctx.eqToGenerate
  runtimeFunctions := ctx.runtimeFunctions

/-- The blocks of an item; an item without blocks is an index out of bounds. -/
def itemBlocks (ctx : LowerCtx) (item : Mir.Item) (parameters : List Mir.Var) (returnType : Ty)
    (forceReferenceReturn : Bool) : Option Lowerer :=
  match item.blocks with
  | [] => none
  | b :: bs =>
    let vars := item.vars.filterMap fun v => itemVar env parameters v.1 v.2
    let body : Lower Unit := do
      instructions env returnType forceReferenceReturn b.instructions
      blocks env returnType forceReferenceReturn bs
    (body (ctx.itemLowerer item b.label vars)).map (·.2)

/-- The number of the label of the first block. -/
def Lowerer.entryBlock (s : Lowerer) : LabelRef :=
  match s.blocks with
  | [] => s.label
  | b :: _ => b.label

/-- `Lowerer::item`. A function with an uninhabited parameter is not lowered. -/
def item (ctx : LowerCtx) (item : Mir.Item) : Option (Option AnyItem × LowerCtx) :=
  match item.ty with
  | .constant mirTy name => do
    let ctx := { ctx with dropsToGenerate := ctx.dropsToGenerate ++ [mirTy] }
    let s ← itemBlocks env ctx item [] mirTy true
    let c : ConstantItem := ⟨item.name, name, layoutOf env.rt mirTy, mirTy, item.scope,
      s.entryBlock, s.vars, s.allBlocks⟩
    return (some (.constant c), s.ctx ctx.scopes)
  | .function parameters mirSignature =>
    match itemSignature env.rt parameters mirSignature with
    | none => none
    | some none => some (none, ctx)
    | some (some irSignature) => do
      let s ← itemBlocks env ctx item parameters mirSignature.returnType false
      let f : Item := ⟨.item item.name, item.scope, irSignature, s.entryBlock, s.vars, s.allBlocks⟩
      return (some (.function f), s.ctx ctx.scopes)

def items (ctx : LowerCtx) : List Mir.Item → Option (List AnyItem × LowerCtx)
  | [] => some ([], ctx)
  | i :: is => do
    let (f, ctx) ← item env ctx i
    let (fs, ctx) ← items ctx is
    return (f.toList ++ fs, ctx)

/-- The LIR of a program, with the signatures of the registered functions that it calls. -/
structure LirProgram where
  functions : List AnyItem
  runtimeFunctions : List (ℕ × Signature)

/-- `Lowerer::program`. -/
def program (ctx : LowerCtx) (mir : List Mir.Item) : Option LirProgram := do
  let (fs, ctx) ← items env ctx mir
  let (clones, ctx) ← generateClones env.rt ctx
  let (drops, ctx) ← generateDrops env.rt ctx
  let (eqs, ctx) ← generateEqs env.rt ctx
  return ⟨(clones ++ drops ++ eqs).map .function ++ fs, ctx.runtimeFunctions⟩

end Roto.Lir
