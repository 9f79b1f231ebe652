import RotoCompiler.Lir.Generated
import RotoCompiler.Lir.Offsets

/-!
# Generated equality (lir/lower/eq.rs)

A comparison of two values is a comparison of registers, a call of the equality function of
a registered type, or a call of a function that is generated for the type.
-/

namespace Roto.Lir
open Mir

variable (rt : Rt)

/-- `Lowerer::get_runtime_eq`, with the `TypeId` for the function. -/
def getRuntimeEq : Ty → Option ℕ
  | .runtime id => some id
  | .primitive .string => some rt.rotoString
  | .primitive .ipAddr => some rt.ipAddr
  | .primitive .ipPrefix => some rt.ipPrefix
  | .list _ => some rt.erasedList
  | _ => none

def emitNot (negated : Bool) (dest : Var) : Lower Unit := do
  if negated then emit (.not dest (.place dest))

/-- `Lowerer::call_eq_of`. -/
def callEqOf (negated : Bool) (left right : Operand) (ty : Ty) : Lower Operand := do
  match lowerType rt ty with
  | none => return .value (.bool true)
  | some .pointer => do
    let dest ← newTmp .bool
    match getRuntimeEq rt ty with
    | some eqFn => do
      emit (.eq dest left right eqFn)
      emitNot negated dest
      return .place dest
    | none => do
      emit (.call (some (dest, .bool)) none (.generatedEq ty) [left, right] none)
      modify fun s => { s with eqToGenerate := s.eqToGenerate ++ [ty] }
      emitNot negated dest
      return .place dest
  | some .f32 | some .f64 => do
    let dest ← newTmp .bool
    emit (.floatCmp dest (if negated then .ne else .eq) left right)
    return .place dest
  | some _ => do
    let dest ← newTmp .bool
    emit (.intCmp dest (if negated then .ne else .eq) left right)
    return .place dest

/-- `Lowerer::call_eq_by_ptr`. -/
def callEqByPtr (leftPtr rightPtr : Var) (ty : Ty) : Lower Operand := do
  match isReferenceType rt ty with
  | none => return .value (.bool true)
  | some true => callEqOf rt false (.place leftPtr) (.place rightPtr) ty
  | some false => do
    let irTy ← unwrap (lowerType rt ty)
    let left ← readTmp leftPtr irTy
    let right ← readTmp rightPtr irTy
    callEqOf rt false left right ty

/-! ### The generated functions -/

/-- The comparison of one field. -/
def eqField (leftBase rightBase : Var) (off : ℕ) (ty : Ty) : Lower Operand := do
  let left ← offset leftBase off
  let right ← offset rightBase off
  callEqByPtr rt left right ty

/-- The loop over fields, which walks along the labels. A field without an offset is
uninhabited. -/
def eqFields (leftBase rightBase : Var) (falseLbl : LabelRef) :
    List LabelRef → List (Option ℕ × Ty) → Lower Unit
  | lbl :: next :: lbls, (off, ty) :: fields => do
    newBlock lbl
    match off with
    | none => emit (.jump next)
    | some off => do
      let out ← eqField rt leftBase rightBase off ty
      emit (.switch out [(1, next)] falseLbl)
    eqFields leftBase rightBase falseLbl (next :: lbls) fields
  | _, _ => return

def returnBool (lbl : LabelRef) (b : Bool) : Lower Unit := do
  newBlock lbl
  emit (.ret (some (.value (.bool b))))

/-- `Lowerer::generate_eq_body_record`. -/
def generateEqBodyRecord (leftBase rightBase : Var) (fields : List (Identifier × Ty)) :
    Lower Unit := do
  let _ ← wrapInternal
  let lbls ← wrapInternals (fields.length + 1)
  let falseLbl ← wrapInternal
  let first ← unwrap lbls.head?
  emit (.jump first)
  eqFields rt leftBase rightBase falseLbl lbls (eqRecordFields rt .new fields)
  let last ← unwrap lbls.getLast?
  returnBool last true
  returnBool falseLbl false

/-- One round of the loop over the variants. -/
def eqVariant (leftBase rightBase : Var) (falseLbl variantLbl : LabelRef) (tys : List Ty) :
    Lower Unit := do
  let lbls ← wrapInternals (tys.length + 1)
  match eqVariantFields rt tys with
  | none => emit (.ret (some (.value (.bool true))))
  | some fields => do
    newBlock variantLbl
    let first ← unwrap lbls.head?
    emit (.jump first)
    eqFields rt leftBase rightBase falseLbl lbls (fields.map fun f => (some f.1, f.2))
    let last ← unwrap lbls.getLast?
    returnBool last true

def eqVariants (leftBase rightBase : Var) (falseLbl : LabelRef) :
    List LabelRef → List (Identifier × List Ty) → Lower Unit
  | variantLbl :: lbls, (_, tys) :: variants => do
    eqVariant rt leftBase rightBase falseLbl variantLbl tys
    eqVariants leftBase rightBase falseLbl lbls variants
  | _, _ => return

/-- `Lowerer::generate_eq_body_enum`. -/
def generateEqBodyEnum (leftBase rightBase : Var) (variants : List (Identifier × List Ty)) :
    Lower Unit := do
  let _ ← wrapInternal
  let matchLbl ← wrapInternal
  let falseLbl ← wrapInternal
  let variantLbls ← wrapInternals variants.length
  let leftDiscriminant ← readTmp leftBase .u8
  let rightDiscriminant ← readTmp rightBase .u8
  let discriminantsEqual ← newTmp .u8
  emit (.intCmp discriminantsEqual .eq leftDiscriminant rightDiscriminant)
  emit (.switch (.place discriminantsEqual) [(1, matchLbl)] falseLbl)
  newBlock matchLbl
  emit (.switch leftDiscriminant ((List.range variants.length).zip variantLbls) falseLbl)
  eqVariants rt leftBase rightBase falseLbl variantLbls variants
  returnBool falseLbl false

/-- `Lowerer::generate_int_eq`. -/
def generateIntEq (leftPtr rightPtr : Var) (ty : Ty) : Lower Unit := do
  let irTy ← unwrap (lowerType rt ty)
  let left ← readTmp leftPtr irTy
  let right ← readTmp rightPtr irTy
  let dest ← newTmp .bool
  emit (.intCmp dest .eq left right)
  emit (.ret (some (.place dest)))

/-- `Lowerer::generate_float_eq`. -/
def generateFloatEq (leftPtr rightPtr : Var) (ty : Ty) : Lower Unit := do
  let irTy ← unwrap (lowerType rt ty)
  let left ← readTmp leftPtr irTy
  let right ← readTmp rightPtr irTy
  let dest ← newTmp .bool
  emit (.floatCmp dest .eq left right)
  emit (.ret (some (.place dest)))

/-- `Lowerer::generate_eq_runtime`. -/
def generateEqRuntime (leftPtr rightPtr : Var) (ty : Ty) : Lower Unit := do
  let eqFn ← unwrap (getRuntimeEq rt ty)
  let dest ← newTmp .bool
  emit (.eq dest (.place leftPtr) (.place rightPtr) eqFn)
  emit (.ret (some (.place dest)))

/-- `Lowerer::generate_eq_body`. -/
def generateEqBody (ty : Ty) (scope : ScopeRef) : Lower Unit :=
  let leftPtr : Var := ⟨scope, .explicit "left"⟩
  let rightPtr : Var := ⟨scope, .explicit "right"⟩
  match ty with
  | .unit | .never => emit (.ret (some (.value (.bool true))))
  | .record fields => generateEqBodyRecord rt leftPtr rightPtr fields
  | .enum variants => generateEqBodyEnum rt leftPtr rightPtr variants
  | .runtime _ => generateEqRuntime rt leftPtr rightPtr ty
  | .primitive (.float _) => generateFloatEq rt leftPtr rightPtr ty
  | .primitive .ipAddr | .primitive .ipPrefix | .primitive .string =>
    generateEqRuntime rt leftPtr rightPtr ty
  | .primitive _ => generateIntEq rt leftPtr rightPtr ty
  | .list _ => generateEqRuntime rt leftPtr rightPtr ty

/-- `Lowerer::generate_eq`. -/
def generateEq (ty : Ty) : LowerCtx → Option (Item × LowerCtx) :=
  generateFunction (.generatedEq ty)
    ⟨[("left", .pointer), ("right", .pointer)], false, false, some .bool⟩ (generateEqBody rt ty)

/-- The types that wait for their function. -/
def eqWork : Worklist Ty Item LowerCtx where
  queue := LowerCtx.eqToGenerate
  rest ctx := { ctx with eqToGenerate := ctx.eqToGenerate.tail }
  process := generateEq rt

/-- `Lowerer::generate_eqs`. A type is taken off in each round, and only types of fields of it
are added, so the number of rounds has a bound. -/
def generateEqs (ctx : LowerCtx) : Option (List Item × LowerCtx) :=
  (eqWork rt).run ((ctx.eqToGenerate.map Ty.size).sum + 1) [] ctx

end Roto.Lir
