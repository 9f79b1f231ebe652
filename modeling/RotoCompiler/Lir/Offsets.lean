import RotoCompiler.Lir.Syntax
import RotoCompiler.Mir.Layout

/-!
# Where fields are (lir/lower.rs, clones.rs, drops.rs, eq.rs, value/list.rs)

The offset of a field is computed again in each place that needs it: for projections, in
the generated clone, drop and eq functions, and for the payload of an `Option` in
`list_get`. Each of them keeps its own loop here. An instruction has an offset of 32 bits, so
an offset is cast where code is emitted.
-/

namespace Roto.Lir
open Mir

variable (rt : Rt)

/-- `as u32`. -/
def asU32 (n : ℕ) : ℕ := n % 2 ^ 32

/-! ### Projections (lower.rs) -/

/-- The loop of `get_field`; `none` is a failed `unwrap` or the `ice!` at its end. -/
def getFieldLoop (builder : LayoutBuilder) (ident : Identifier) :
    List (Identifier × Ty) → Option (ℕ × Ty)
  | [] => none
  | (field, newTy) :: fields => do
    let l ← layoutOf rt newTy
    let (offset, builder) := builder.add l
    if field = ident then return (offset, newTy)
    getFieldLoop builder ident fields

/-- `Lowerer::get_field`. -/
def getField : Ty → Identifier → Option (ℕ × Ty)
  | .record fields, ident => getFieldLoop rt .new ident fields
  | _, _ => none

/-- The loop of `location` over the fields of a variant, with the last offset and type.
The inner `none` is the `?` on an uninhabited field. -/
def variantFieldLoop (builder : LayoutBuilder) (last : Option (ℕ × Ty)) :
    List Ty → Option (Option (ℕ × Ty))
  | [] => last.map some
  | fieldTy :: tys =>
    match layoutOf rt fieldTy with
    | none => some none
    | some l =>
      let (offset, builder) := builder.add l
      variantFieldLoop builder (some (offset, fieldTy)) tys

def variantField : Ty → Identifier → ℕ → Option (Option (ℕ × Ty))
  | .enum variants, variantName, n => do
    let variant ← variants.find? fun v => v.1 = variantName
    variantFieldLoop rt .tagged none (variant.2.take (n + 1))
  | _, _, _ => none

/-- The loop of `location` over the projections of a place. -/
def projectionLoop (offset : ℕ) (ty : Ty) : List Projection → Option (Option (ℕ × Ty))
  | [] => some (some (offset, ty))
  | .field ident :: projection => do
    let (newOffset, newTy) ← getField rt ty ident
    projectionLoop (offset + newOffset) newTy projection
  | .variantField variantName n :: projection => do
    match ← variantField rt ty variantName n with
    | none => return none
    | some (newOffset, newTy) => projectionLoop (offset + newOffset) newTy projection

/-- `Lowerer::location`. The outer `none` is a panic of the compiler, the inner one is an
uninhabited type. -/
def location (place : Place) (ty : Ty) : Option (Option Location) :=
  if place.projection.isEmpty then
    match isReferenceType rt ty with
    | none => some none
    | some true => some (some (.pointer (lowerVar place.var) 0))
    | some false => some (some (.var (lowerVar place.var)))
  else do
    match ← projectionLoop rt 0 place.rootTy place.projection with
    | none => return none
    | some (offset, _) => return some (.pointer (lowerVar place.var) offset)

/-! ### Generated functions (clones.rs, drops.rs, eq.rs) -/

mutual

/-- `Lowerer::needs_clone`. -/
def needsClone : Ty → Bool
  | .unit => false
  | .never => false
  | .record fields => needsCloneFields fields
  | .enum variants => needsCloneVariants variants
  | .primitive .string => true
  | .primitive _ => false
  | .list _ => true
  | .runtime typeId => (rt.runtimeType typeId).movability = .cloneDrop

def needsCloneFields : List (Identifier × Ty) → Bool
  | [] => false
  | (_, t) :: fields => needsClone t || needsCloneFields fields

def needsCloneTypes : List Ty → Bool
  | [] => false
  | t :: tys => needsClone t || needsCloneTypes tys

def needsCloneVariants : List (Identifier × List Ty) → Bool
  | [] => false
  | (_, tys) :: variants => needsCloneTypes tys || needsCloneVariants variants

end

/-- `Lowerer::needs_drop`, which asks `needs_clone` about the fields. -/
def needsDrop : Ty → Bool
  | .unit => false
  | .never => false
  | .record fields => needsCloneFields rt fields
  | .enum variants => needsCloneVariants rt variants
  | .primitive .string => true
  | .primitive _ => false
  | .list _ => true
  | .runtime typeId => (rt.runtimeType typeId).movability = .cloneDrop

/-- The fields that `generate_clone_body_record` clones, with the offsets that it gives to
`call_clone_of`. -/
def cloneRecordFields (builder : LayoutBuilder) : List (Identifier × Ty) → List (ℕ × Ty)
  | [] => []
  | (_, ty) :: fields =>
    match layoutOf rt ty with
    | none => cloneRecordFields builder fields
    | some l =>
      let (newOffset, builder) := builder.add l
      (newOffset, ty) :: cloneRecordFields builder fields

/-- The fields that `generate_drop_body_record` drops, with the offsets it emits. -/
def dropRecordFields (builder : LayoutBuilder) : List (Identifier × Ty) → List (ℕ × Ty)
  | [] => []
  | (_, ty) :: fields =>
    match layoutOf rt ty with
    | none => dropRecordFields builder fields
    | some l =>
      let (newOffset, builder) := builder.add l
      if !needsDrop rt ty then dropRecordFields builder fields
      else (asU32 newOffset, ty) :: dropRecordFields builder fields

/-- The fields that `generate_eq_body_record` looks at, each with the offset it emits if it is
compared; an uninhabited one only gets a jump. -/
def eqRecordFields (builder : LayoutBuilder) : List (Identifier × Ty) → List (Option ℕ × Ty)
  | [] => []
  | (_, ty) :: fields =>
    match layoutOf rt ty with
    | none => (none, ty) :: eqRecordFields builder fields
    | some l =>
      let (offset, builder) := builder.add l
      (some (asU32 offset), ty) :: eqRecordFields builder fields

/-- The fields of a variant with their offsets, in all three generated functions: they
collect the layouts first and give up on an uninhabited one. -/
def variantFields (tys : List Ty) : Option (List (ℕ × Ty)) := do
  let layouts ← layoutsOf rt tys
  return (LayoutBuilder.tagged.placed layouts).zip tys

/-- The offsets as they are emitted. -/
def emittedOffsets (fields : List (ℕ × Ty)) : List (ℕ × Ty) := fields.map fun f => (asU32 f.1, f.2)

def cloneVariantFields (tys : List Ty) : Option (List (ℕ × Ty)) := variantFields rt tys

def dropVariantFields (tys : List Ty) : Option (List (ℕ × Ty)) := do
  let fields ← variantFields rt tys
  return emittedOffsets fields

def eqVariantFields (tys : List Ty) : Option (List (ℕ × Ty)) := do
  let fields ← variantFields rt tys
  return emittedOffsets fields

end Roto.Lir
