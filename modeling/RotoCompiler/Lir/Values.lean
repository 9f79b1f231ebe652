import RotoCompiler.Lir.Exec
import RotoCompiler.Lir.LayoutAgreement

/-!
# Values in memory

What a value of a type is, without its layout, and when a memory has it at an address. The
byte for the discriminant has no place for a number from 256 on, so `set_discriminant` writes
what is left of it.
-/

namespace Roto.Lir
open Mir
open Lib (Memory)

/-- The type of a register with a value of a primitive type, where it fits in one. -/
def scalarType : Primitive → Option IrType
  | .int .unsigned .i8 => some .u8
  | .int .unsigned .i16 => some .u16
  | .int .unsigned .i32 => some .u32
  | .int .unsigned .i64 => some .u64
  | .int .signed .i8 => some .i8
  | .int .signed .i16 => some .i16
  | .int .signed .i32 => some .i32
  | .int .signed .i64 => some .i64
  | .float .f32 => some .f32
  | .float .f64 => some .f64
  | .bool => some .bool
  | .char => some .u32
  | .asn => some .u32
  | .string => none
  | .ipAddr => none
  | .ipPrefix => none

variable (rt : Rt)

/-- The `TypeId` behind a type that is implemented in Rust. -/
def rustType : Ty → Option ℕ
  | .runtime id => some id
  | .primitive .string => some rt.rotoString
  | .primitive .ipAddr => some rt.ipAddr
  | .primitive .ipPrefix => some rt.ipPrefix
  | .list _ => some rt.erasedList
  | _ => none

/-- The type has values, and they take space. -/
def Sized (ty : Ty) : Prop := ∃ l, layoutOf rt ty = some l ∧ 0 < l.size

/-- A value; those of Rust types are of some type `X`. -/
inductive Value (X : Type) where
  | unit
  | scalar (irTy : IrType) (bits : ℕ)
  | leaf (ty : Ty) (x : X)
  | record (fields : List (Value X))
  | enum (discriminant : ℕ) (fields : List (Value X))

variable {X : Type}

mutual

/-- The memory has a value at an address. Which bytes are a value of a Rust type is up to
`holds`. -/
inductive Holds (holds : ℕ → Memory → ℕ → X → Prop) (mem : Memory) : Ty → ℕ → Value X → Prop
  | unit {a : ℕ} : Holds holds mem .unit a .unit
  | scalar {p : Primitive} {irTy : IrType} {a : ℕ} (h : scalarType p = some irTy) :
      Holds holds mem (.primitive p) a (.scalar irTy (mem.bits irTy.bytes a))
  | leaf {ty : Ty} {id a : ℕ} {x : X} (hid : rustType rt ty = some id) (h : holds id mem a x) :
      Holds holds mem ty a (.leaf ty x)
  | record {fields : List (Identifier × Ty)} {ls : List Layout} {a : ℕ} {vs : List (Value X)}
      (hls : layoutsOf rt (fields.map (·.2)) = some ls)
      (h : HoldsAll holds mem ((LayoutBuilder.new.placed ls).zip (fields.map (·.2))) a vs) :
      Holds holds mem (.record fields) a (.record vs)
  | enum {variants : List (Identifier × List Ty)} {v : Identifier × List Ty} {ls : List Layout}
      {a d : ℕ} {vs : List (Value X)} (hv : variants[d]? = some v) (hd : (mem a).toNat = d % 256)
      (hls : layoutsOf rt v.2 = some ls)
      (h : HoldsAll holds mem ((LayoutBuilder.tagged.placed ls).zip v.2) a vs) :
      Holds holds mem (.enum variants) a (.enum d vs)

/-- It has values at offsets of an address. -/
inductive HoldsAll (holds : ℕ → Memory → ℕ → X → Prop) (mem : Memory) :
    List (ℕ × Ty) → ℕ → List (Value X) → Prop
  | nil {a : ℕ} : HoldsAll holds mem [] a []
  | cons {off a : ℕ} {ty : Ty} {fields : List (ℕ × Ty)} {v : Value X} {vs : List (Value X)}
      (h : Holds holds mem ty (a + off) v) (hs : HoldsAll holds mem fields a vs) :
      HoldsAll holds mem ((off, ty) :: fields) a (v :: vs)

end

variable {rt}

theorem Holds.leaf_inv {holds : ℕ → Memory → ℕ → X → Prop} {mem : Memory} {ty : Ty} {id a : ℕ}
    {v : Value X} (h : Holds rt holds mem ty a v) (hid : rustType rt ty = some id) :
    ∃ x, holds id mem a x ∧ v = .leaf ty x := by
  cases h with
  | leaf hid' hx =>
    obtain rfl := Option.some.inj (hid'.symm.trans hid)
    exact ⟨_, hx, rfl⟩
  | unit => cases hid
  | scalar hs => rename_i q irTy; cases q <;> cases hid <;> cases hs
  | record => cases hid
  | enum => cases hid

/-! ### Types in registers -/

theorem scalarType_bytes {p : Primitive} {irTy : IrType} (h : scalarType p = some irTy) :
    irTy.bytes = (rt.primitiveLayout p).size := by
  cases p with
  | int k s => cases k <;> cases s <;> cases h <;> rfl
  | float s => cases s <;> cases h <;> rfl
  | _ => cases h <;> rfl

theorem scalarType_ne_pointer {p : Primitive} : scalarType p ≠ some .pointer := by
  cases p with
  | int k s => cases k <;> cases s <;> simp [scalarType]
  | float s => cases s <;> simp [scalarType]
  | _ => simp [scalarType]

theorem scalarType_int (k : IntKind) (s : IntSize) : ∃ irTy, scalarType (.int k s) = some irTy := by
  cases k <;> cases s <;> exact ⟨_, rfl⟩

theorem scalarType_float (s : FloatSize) : ∃ irTy, scalarType (.float s) = some irTy := by
  cases s <;> exact ⟨_, rfl⟩

theorem isReferenceType_scalar {p : Primitive} {irTy : IrType} (h : scalarType p = some irTy) :
    isReferenceType rt (.primitive p) = some false := by
  have hpos := layoutOf_primitive_pos rt p
  have hlayout : layoutOf rt (.primitive p) = some (rt.primitiveLayout p) := rfl
  simp only [isReferenceType, hlayout, bind, Option.bind, if_neg hpos.ne']
  cases p with
  | int k s => rfl
  | float s => rfl
  | string => cases h
  | ipAddr => cases h
  | ipPrefix => cases h
  | _ => rfl

theorem lowerType_scalar {p : Primitive} {irTy : IrType} (h : scalarType p = some irTy) :
    lowerType rt (.primitive p) = some irTy := by
  have hpos := isZeroSized_of_pos (layoutOf_primitive_pos rt p)
  have hlayout : layoutOf rt (.primitive p) = some (rt.primitiveLayout p) := rfl
  unfold lowerType
  rw [hlayout, Option.any_some, hpos, if_neg (by simp)]
  cases p with
  | int k s => cases k <;> cases s <;> exact h
  | float s => cases s <;> exact h
  | string => cases h
  | ipAddr => cases h
  | ipPrefix => cases h
  | _ => exact h

theorem lowerType_uninhabited {ty : Ty} (h : layoutOf rt ty = none) : lowerType rt ty = none := by
  unfold lowerType
  rw [h, Option.any_none, if_neg Bool.false_ne_true]
  cases ty with
  | primitive p => cases h
  | list t => cases h
  | runtime id => cases h
  | _ => simp [isReferenceType, h]

theorem lowerType_zero {ty : Ty} {l : Layout} (h : layoutOf rt ty = some l) (hzero : l.size = 0) :
    lowerType rt ty = none := by
  unfold lowerType
  rw [h, Option.any_some, if_pos (by simp [Layout.isZeroSized, hzero])]

theorem isReferenceType_zero {ty : Ty} {l : Layout} (h : layoutOf rt ty = some l)
    (hzero : l.size = 0) : isReferenceType rt ty = some false := by
  simp only [isReferenceType, h, bind, Option.bind, hzero, if_true]
  rfl

/-- A type with a size is the type of a scalar, or its values are behind pointers. -/
theorem Sized.cases {ty : Ty} (h : Sized rt ty) :
    (∃ p irTy, ty = .primitive p ∧ scalarType p = some irTy) ∨
      (isReferenceType rt ty = some true ∧ lowerType rt ty = some .pointer) := by
  obtain ⟨l, hl, hpos⟩ := h
  by_cases hscalar : ∃ p irTy, ty = .primitive p ∧ scalarType p = some irTy
  · exact .inl hscalar
  · have href : isReferenceType rt ty = some true := by
      simp only [isReferenceType, hl, bind, Option.bind, if_neg hpos.ne']
      cases ty with
      | unit =>
        obtain rfl := Option.some.inj hl
        cases hpos
      | never => cases hl
      | primitive p => cases p with
        | int k s => exact absurd ⟨_, _, rfl, (scalarType_int k s).choose_spec⟩ hscalar
        | float s => exact absurd ⟨_, _, rfl, (scalarType_float s).choose_spec⟩ hscalar
        | string => rfl
        | ipAddr => rfl
        | ipPrefix => rfl
        | _ => exact absurd ⟨_, _, rfl, rfl⟩ hscalar
      | _ => rfl
    refine .inr ⟨href, ?_⟩
    unfold lowerType
    rw [hl, Option.any_some, isZeroSized_of_pos hpos, if_neg (by simp)]
    cases ty with
    | primitive p => cases p with
      | int k s => exact absurd ⟨_, _, rfl, (scalarType_int k s).choose_spec⟩ hscalar
      | float s => exact absurd ⟨_, _, rfl, (scalarType_float s).choose_spec⟩ hscalar
      | string => simp [href]
      | ipAddr => simp [href]
      | ipPrefix => simp [href]
      | _ => exact absurd ⟨_, _, rfl, rfl⟩ hscalar
    | _ => simp [href]

/-- There is a type in the LIR for each type of a size. -/
theorem lowerType_isSome {ty : Ty} {l : Layout} (h : layoutOf rt ty = some l) :
    (lowerType rt ty).isSome = !l.isZeroSized := by
  by_cases hzero : l.size = 0
  · rw [lowerType_zero h hzero]
    simp [Layout.isZeroSized, hzero]
  · have hpos : 0 < l.size := Nat.pos_of_ne_zero hzero
    rw [isZeroSized_of_pos hpos]
    rcases Sized.cases ⟨l, h, hpos⟩ with ⟨p, irTy, rfl, hp⟩ | ⟨-, hlower⟩
    · rw [lowerType_scalar hp]
      rfl
    · rw [hlower]
      rfl

end Roto.Lir
