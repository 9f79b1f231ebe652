import RotoCompiler.Lir.Generated
import RotoCompiler.Lir.Offsets

/-!
# Generated clones and drops (lir/lower/clones.rs, lir/lower/drops.rs)

A value is copied where that is enough. Otherwise it is cloned or dropped with the function of
a registered type, or with a function that is generated for the type.
-/

namespace Roto.Lir
open Mir

variable (rt : Rt)

/-- The registered type with the functions of a type. -/
def runtimeId : Ty → Option ℕ
  | .runtime id => some id
  | .primitive .string => some rt.rotoString
  | .list _ => some rt.erasedList
  | _ => none

/-- `Lowerer::get_runtime_clone`, with the `TypeId` for the function. -/
def getRuntimeClone (ty : Ty) : Option ℕ :=
  (runtimeId rt ty).filter fun id => (rt.runtimeType id).movability = .cloneDrop

/-- `Lowerer::get_runtime_drop`, with the `TypeId` for the function. -/
def getRuntimeDrop (ty : Ty) : Option ℕ :=
  (runtimeId rt ty).filter fun id => (rt.runtimeType id).movability = .cloneDrop

/-! ### Clones -/

/-- `Lowerer::call_clone_function`. -/
def callCloneFunction (src dest : Var) (ty : Ty) : Lower Unit := do
  if !needsClone rt ty then
    let l ← unwrap (layoutOf rt ty)
    emit (.copy (.place dest) (.place src) (asU32 l.size))
  else
    match getRuntimeClone rt ty with
    | some cloneFn => emit (.clone (.place dest) (.place src) cloneFn)
    | none => do
      emit (.call none none (.generatedClone ty) [.place src] (some dest))
      modify fun s => { s with clonesToGenerate := s.clonesToGenerate ++ [ty] }

/-- `Lowerer::call_clone_of`. -/
def callCloneOf (dest src : Location) (ty : Ty) : Lower Unit := do
  match dest, src with
  | .var dest, .var src =>
    match lowerType rt ty with
    | none => return
    | some irTy => emit (.assign dest (.place src) irTy)
  | .var dest, .pointer base off =>
    match lowerType rt ty with
    | none => return
    | some irTy => do
      let src ← offset base (asU32 off)
      emit (.read dest (.place src) irTy)
  | .pointer base off, .var src =>
    match lowerType rt ty with
    | none => return
    | some _ => do
      let dest ← offset base (asU32 off)
      emit (.write (.place dest) (.place src))
  | .pointer baseTo offTo, .pointer baseFrom offFrom => do
    let src ← offset baseFrom (asU32 offFrom)
    let dest ← offset baseTo (asU32 offTo)
    callCloneFunction rt src dest ty

/-- The loop over the fields of a record or a variant. -/
def cloneFields (returnVar rootVar : Var) : List (ℕ × Ty) → Lower Unit
  | [] => return
  | (off, ty) :: fields => do
    callCloneOf rt (.pointer returnVar off) (.pointer rootVar off) ty
    cloneFields returnVar rootVar fields

/-- `Lowerer::generate_clone_body_record`. -/
def generateCloneBodyRecord (returnVar rootVar : Var) (fields : List (Identifier × Ty)) :
    Lower Unit := do
  cloneFields rt returnVar rootVar (cloneRecordFields rt .new fields)
  emit (.ret none)

/-- The loop over the variants. Nothing is done for one with an uninhabited field. -/
def cloneVariants (returnVar rootVar : Var) :
    List LabelRef → List (Identifier × List Ty) → Lower Unit
  | lbl :: lbls, (_, tys) :: variants => do
    newBlock lbl
    cloneFields rt returnVar rootVar ((cloneVariantFields rt tys).getD [])
    emit (.ret none)
    cloneVariants returnVar rootVar lbls variants
  | _, _ => return

/-- The switch over the variants; the last one is the default. -/
def switchVariants (discriminant : Operand) (lbls : List LabelRef) : Lower Unit := do
  let default ← unwrap lbls.getLast?
  emit (.switch discriminant ((List.range (lbls.length - 1)).zip lbls) default)

/-- `Lowerer::generate_clone_body_enum`. -/
def generateCloneBodyEnum (returnVar rootVar : Var) (variants : List (Identifier × List Ty)) :
    Lower Unit := do
  let _ ← wrapInternal
  let lbls ← wrapInternals variants.length
  let offsetVar ← offset rootVar 0
  let discriminant ← readTmp offsetVar .u8
  emit (.write (.place returnVar) discriminant)
  switchVariants discriminant lbls
  cloneVariants rt returnVar rootVar lbls variants

/-- `Lowerer::generate_clone_body`. -/
def generateCloneBody (ty : Ty) (scope : ScopeRef) : Lower Unit := do
  let rootVar : Var := ⟨scope, .explicit "val"⟩
  let returnVar : Var := ⟨scope, .ret⟩
  match getRuntimeClone rt ty with
  | some cloneFn => do
    emit (.clone (.place returnVar) (.place rootVar) cloneFn)
    emit (.ret none)
  | none =>
    match ty with
    | .unit | .never | .primitive _ => emit (.ret none)
    | .record fields => generateCloneBodyRecord rt returnVar rootVar fields
    | .enum variants => generateCloneBodyEnum rt returnVar rootVar variants
    | .runtime _ => do
      let l ← unwrap (layoutOf rt ty)
      emit (.copy (.place returnVar) (.place rootVar) (asU32 l.size))
      emit (.ret none)
    -- the `ice!`
    | .list _ => unwrap none

/-- `Lowerer::generate_clone`. -/
def generateClone (ty : Ty) : LowerCtx → Option (Item × LowerCtx) :=
  generateFunction (.generatedClone ty) ⟨[("val", .pointer)], false, true, none⟩
    (generateCloneBody rt ty)

/-- The types that wait for their clone function. -/
def cloneWork : Worklist Ty Item LowerCtx where
  queue := LowerCtx.clonesToGenerate
  rest ctx := { ctx with clonesToGenerate := ctx.clonesToGenerate.tail }
  process := generateClone rt

/-- `Lowerer::generate_clones`. -/
def generateClones (ctx : LowerCtx) : Option (List Item × LowerCtx) :=
  (cloneWork rt).run ((ctx.clonesToGenerate.map Ty.size).sum + 1) [] ctx

/-! ### Drops -/

/-- `Lowerer::call_drop_of`. -/
def callDropOf (var : Operand) (ty : Ty) : Lower Unit := do
  if !needsDrop rt ty then return
  match getRuntimeDrop rt ty with
  | some dropFn => emit (.drop var dropFn)
  | none => do
    emit (.call none none (.generatedDrop ty) [var] none)
    modify fun s => { s with dropsToGenerate := s.dropsToGenerate ++ [ty] }

def dropFields (rootVar : Var) : List (ℕ × Ty) → Lower Unit
  | [] => return
  | (off, ty) :: fields => do
    let var ← offset rootVar off
    callDropOf rt (.place var) ty
    dropFields rootVar fields

/-- `Lowerer::generate_drop_body_record`. -/
def generateDropBodyRecord (rootVar : Var) (fields : List (Identifier × Ty)) : Lower Unit := do
  dropFields rt rootVar (dropRecordFields rt .new fields)
  emit (.ret none)

def dropVariants (rootVar : Var) : List LabelRef → List (Identifier × List Ty) → Lower Unit
  | lbl :: lbls, (_, tys) :: variants => do
    newBlock lbl
    dropFields rt rootVar ((dropVariantFields rt tys).getD [])
    emit (.ret none)
    dropVariants rootVar lbls variants
  | _, _ => return

/-- `Lowerer::generate_drop_body_enum`. -/
def generateDropBodyEnum (rootVar : Var) (variants : List (Identifier × List Ty)) :
    Lower Unit := do
  let _ ← wrapInternal
  let lbls ← wrapInternals variants.length
  let offsetVar ← offset rootVar 0
  let discriminant ← readTmp offsetVar .u8
  switchVariants discriminant lbls
  dropVariants rt rootVar lbls variants

/-- `Lowerer::generate_drop_body`. -/
def generateDropBody (ty : Ty) (scope : ScopeRef) : Lower Unit := do
  let rootVar : Var := ⟨scope, .explicit "val"⟩
  match getRuntimeDrop rt ty with
  | some dropFn => do
    emit (.drop (.place rootVar) dropFn)
    emit (.ret none)
  | none =>
    match ty with
    | .unit | .never | .primitive _ | .runtime _ => emit (.ret none)
    | .record fields => generateDropBodyRecord rt rootVar fields
    | .enum variants => generateDropBodyEnum rt rootVar variants
    -- the `ice!`
    | .list _ => unwrap none

/-- `Lowerer::generate_drop`. -/
def generateDrop (ty : Ty) : LowerCtx → Option (Item × LowerCtx) :=
  generateFunction (.generatedDrop ty) ⟨[("val", .pointer)], false, false, none⟩
    (generateDropBody rt ty)

/-- The types that wait for their drop function. -/
def dropWork : Worklist Ty Item LowerCtx where
  queue := LowerCtx.dropsToGenerate
  rest ctx := { ctx with dropsToGenerate := ctx.dropsToGenerate.tail }
  process := generateDrop rt

/-- `Lowerer::generate_drops`. -/
def generateDrops (ctx : LowerCtx) : Option (List Item × LowerCtx) :=
  (dropWork rt).run ((ctx.dropsToGenerate.map Ty.size).sum + 1) [] ctx

end Roto.Lir
