import RotoCompiler.Lir.Offsets

/-!
# The lowerer (lir/lower.rs)

Its state is the block that instructions are emitted into, the blocks before it, and the
parts of the context that lowering writes. A computation gives nothing where the compiler
panics.
-/

namespace Roto.Lir
open Mir

inductive ValueOrSlot where
  | val (ty : IrType)
  | stackSlot (l : Layout)

/-- `Lowerer`, with the first block pushed. The number of labels in the label store is the
next label. -/
structure Lowerer where
  blocks : List Block
  label : LabelRef
  instructions : List Instruction
  functionScope : ScopeRef
  tmpIdx : ℕ
  vars : List (Var × ValueOrSlot)
  labels : ℕ
  dropsToGenerate : List Ty
  clonesToGenerate : List Ty
  eqToGenerate : List Ty
  runtimeFunctions : List (ℕ × Signature)

abbrev Lower := StateT Lowerer Option

/-- An `unwrap`. -/
def unwrap {α : Type} (x : Option α) : Lower α := StateT.lift x

variable (rt : Rt)

/-- `Lowerer::lower_type`. The `ice!` at its end is not reached: what is left there is zero
sized, uninhabited or a reference type. -/
def lowerType (ty : Ty) : Option IrType :=
  if (layoutOf rt ty).any Layout.isZeroSized then none
  else match ty with
    | .primitive (.int .unsigned .i8) => some .u8
    | .primitive (.int .unsigned .i16) => some .u16
    | .primitive (.int .unsigned .i32) => some .u32
    | .primitive (.int .unsigned .i64) => some .u64
    | .primitive (.int .signed .i8) => some .i8
    | .primitive (.int .signed .i16) => some .i16
    | .primitive (.int .signed .i32) => some .i32
    | .primitive (.int .signed .i64) => some .i64
    | .primitive (.float .f32) => some .f32
    | .primitive (.float .f64) => some .f64
    | .primitive .asn => some .u32
    | .primitive .char => some .u32
    | .primitive .bool => some .bool
    | .list _ => some .pointer
    | .runtime _ => some .pointer
    | ty => if isReferenceType rt ty = some true then some .pointer else none

/-! ### Emitting -/

def emit (i : Instruction) : Lower Unit :=
  modify fun s => { s with instructions := s.instructions ++ [i] }

/-- `new_block`: the block before is left as it is. -/
def newBlock (label : LabelRef) : Lower Unit :=
  modify fun s => { s with
    blocks := s.blocks ++ [⟨s.label, s.instructions⟩], label := label, instructions := [] }

/-- `wrap_internal` of the label store. -/
def wrapInternal : Lower LabelRef :=
  modifyGet fun s => (s.labels, { s with labels := s.labels + 1 })

def newTmp (ty : IrType) : Lower Var :=
  modifyGet fun s =>
    let var : Var := ⟨s.functionScope, .tmp s.tmpIdx⟩
    (var, { s with tmpIdx := s.tmpIdx + 1, vars := s.vars ++ [(var, .val ty)] })

def newStackSlot (l : Layout) : Lower Var :=
  modifyGet fun s =>
    let var : Var := ⟨s.functionScope, .tmp s.tmpIdx⟩
    (var, { s with tmpIdx := s.tmpIdx + 1, vars := s.vars ++ [(var, .stackSlot l)] })

/-- `Lowerer::offset`. Its callers cast what they give it. -/
def offset (var : Var) (off : ℕ) : Lower Var := do
  if off = 0 then return var
  let new ← newTmp .pointer
  emit (.offset new (.place var) off)
  return new

/-- `Lowerer::move_val`. -/
def moveVal (dest : Location) (val : Operand) (ty : Ty) : Lower Unit := do
  match lowerType rt ty with
  | none => return
  | some irTy =>
    match dest with
    | .var v => emit (.assign v val irTy)
    | .pointer base off => do
      let dest ← offset base (asU32 off)
      match isReferenceType rt ty with
      | some true => do
        let l ← unwrap (layoutOf rt ty)
        emit (.copy (.place dest) val (asU32 l.size))
      | some false => emit (.write (.place dest) val)
      | none => return

/-! ### Calls of registered functions -/

/-- The layout of `VTable`: a size, an alignment and three function pointers. -/
def vtableLayout : Layout :=
  (LayoutBuilder.new.addAll [.eight, .eight, .eight, .eight, .eight]).finish

def nullPtr : Operand := .value ⟨.pointer, 0⟩

/-- The addresses of the generated functions that go into a v-table. -/
def functionAddress (needed : Bool) (name : FunName) (generate : Lowerer → Lowerer) :
    Lower Operand := do
  if !needed then return nullPtr
  let tmp ← newTmp .pointer
  emit (.functionAddress tmp name)
  modify generate
  return .place tmp

/-- One field of the v-table, and the builder for the next one. -/
def vtableField (base : Var) (val : Operand) (builder : LayoutBuilder) : Lower LayoutBuilder := do
  let (off, builder) := builder.add .eight
  let dest ← offset base (asU32 off)
  emit (.write (.place dest) val)
  return builder

/-- The v-table of a type, in a stack slot. -/
def vtable (tyRef : Ty) : Lower Operand := do
  let cloneFuncAddr ← functionAddress (needsClone rt tyRef) (.generatedClone tyRef)
    fun s => { s with clonesToGenerate := s.clonesToGenerate ++ [tyRef] }
  let dropFuncAddr ← functionAddress (needsDrop rt tyRef) (.generatedDrop tyRef)
    fun s => { s with dropsToGenerate := s.dropsToGenerate ++ [tyRef] }
  let eqFuncAddr ← functionAddress true (.generatedEq tyRef)
    fun s => { s with eqToGenerate := s.eqToGenerate ++ [tyRef] }
  let base ← newStackSlot vtableLayout
  let tyLayout := (layoutOf rt tyRef).getD .unit
  let builder ← vtableField base (.value ⟨.pointer, tyLayout.size⟩) .new
  let builder ← vtableField base (.value ⟨.pointer, tyLayout.align⟩) builder
  let builder ← vtableField base cloneFuncAddr builder
  let builder ← vtableField base dropFuncAddr builder
  let _ ← vtableField base eqFuncAddr builder
  return .place base

/-- An argument and the parameter it is for. -/
abbrev Argument := Operand × Identifier × IrType

/-- The loop of `call_runtime` over the requested v-tables. -/
def vtableArgs (i : ℕ) : List Ty → Lower (List Argument)
  | [] => return []
  | tyRef :: vtables => do
    let base ← vtable rt tyRef
    let args ← vtableArgs (i + 1) vtables
    return (base, s!"vtable_{i}", .pointer) :: args

/-- One round of the loop of `call_runtime` over the arguments: nothing is passed for a type
without values, and for a type of size zero only if the function takes a `DynVal`. -/
def runtimeArg (i : ℕ) (dynVal : Bool) (arg : Mir.Var) (ty : Ty) : Lower (Option Argument) := do
  if !dynVal then
    match lowerType rt ty with
    | none => return none
    | some irTy => return some (.place (lowerVar arg), toString i, irTy)
  else
    match layoutOf rt ty with
    | none => return none
    | some elemLayout => do
      let stackSlot ← newStackSlot elemLayout
      moveVal rt (.pointer stackSlot 0) (.place (lowerVar arg)) ty
      return some (.place stackSlot, toString i, .pointer)

/-- The whole loop. Both lists are indexed with the number of the argument. -/
def runtimeArgs (dynVals : List Bool) (tys : List Ty) (i : ℕ) :
    List Mir.Var → Lower (List Argument)
  | [] => return []
  | arg :: mirArgs => do
    let ty ← unwrap tys[i]?
    let dynVal ← unwrap dynVals[i]?
    let this ← runtimeArg rt i dynVal arg ty
    let args ← runtimeArgs dynVals tys (i + 1) mirArgs
    return this.toList ++ args

/-- `Lowerer::call_runtime`. -/
def callRuntime (funcRef : ℕ) (dynVals : List Bool) (mirArgs : List Mir.Var) (vtables : List Ty)
    (mirSignature : Mir.Signature) : Lower (Option Operand) := do
  let returnType := mirSignature.returnType
  let outPtr ← newStackSlot ((layoutOf rt returnType).getD .unit)
  let tables ← vtableArgs rt 0 vtables
  let rest ← runtimeArgs rt dynVals mirSignature.parameterTypes 0 mirArgs
  let all : List Argument := (.place outPtr, "ret", .pointer) :: (tables ++ rest)
  let irSignature : Signature := ⟨all.map (·.2), false, true, none⟩
  modify fun s => { s with runtimeFunctions := (funcRef, irSignature) :: s.runtimeFunctions }
  emit (.callRuntime funcRef (all.map (·.1)))
  match isReferenceType rt returnType with
  | none => return none
  | some true => return some (.place outPtr)
  | some false =>
    match lowerType rt returnType with
    | none => return none
    | some irTy => do
      let tmp ← newTmp irTy
      emit (.read tmp (.place outPtr) irTy)
      return some (.place tmp)

end Roto.Lir
