import RotoCompiler.Mir.Syntax
import RotoCompiler.Runtime.Layout

/-!
# The LIR (lir/mod.rs, lir/value.rs)

Variables, operands and instructions in basic blocks. The function pointers in
instructions are the `TypeId`s of the registered types whose functions they are.
-/

namespace Roto.Lir
open Mir (LabelRef Ty)

inductive IrType where
  | bool | u8 | u16 | u32 | u64 | i8 | i16 | i32 | i64 | f32 | f64 | char | asn | pointer
  deriving DecidableEq, Repr

/-- `IrType::bytes`. -/
def IrType.bytes : IrType → ℕ
  | bool | u8 | i8 => 1
  | u16 | i16 => 2
  | u32 | i32 | f32 | asn | char => 4
  | u64 | i64 | f64 | pointer => 8

inductive VarKind where
  | explicit (ident : Identifier)
  | tmp (idx : ℕ)
  | ret
  | context
  deriving DecidableEq, Repr

structure Var where
  scope : ScopeRef
  kind : VarKind
  deriving DecidableEq, Repr

/-- A value in a register, by its bits. -/
structure IrValue where
  ty : IrType
  bits : ℕ
  deriving DecidableEq, Repr

def IrValue.bool (b : Bool) : IrValue := ⟨.bool, b.toNat⟩
def IrValue.pointer (p : ℕ) : IrValue := ⟨.pointer, p⟩

inductive Operand where
  | place (var : Var)
  | value (v : IrValue)
  deriving DecidableEq, Repr

inductive IntCmp where
  | eq | ne | ult | ule | ugt | uge | slt | sle | sgt | sge
  deriving DecidableEq, Repr

inductive FloatCmp where
  | eq | ne | lt | le | gt | ge
  deriving DecidableEq, Repr

/-- The functions that the lowering of types refers to. The source makes their names from
the number of the type in the pool, which is different for different types. -/
inductive FunName where
  | item (name : Identifier)
  | generatedClone (ty : Ty)
  | generatedDrop (ty : Ty)
  | generatedEq (ty : Ty)
  deriving DecidableEq

inductive Instruction where
  | jump (label : LabelRef)
  | switch (examinee : Operand) (branches : List (ℕ × LabelRef)) (default : LabelRef)
  | assign (dest : Var) (val : Operand) (ty : IrType)
  | constantAddress (dest : Var) (name : ResolvedName)
  | functionAddress (dest : Var) (name : FunName)
  | call (dest : Option (Var × IrType)) (ctx : Option Operand) (func : FunName)
      (args : List Operand) (returnPtr : Option Var)
  | callRuntime (func : ℕ) (args : List Operand)
  | ret (val : Option Operand)
  | intCmp (dest : Var) (cmp : IntCmp) (left right : Operand)
  | floatCmp (dest : Var) (cmp : FloatCmp) (left right : Operand)
  | add (dest : Var) (left right : Operand)
  | sub (dest : Var) (left right : Operand)
  | mul (dest : Var) (left right : Operand)
  | div (dest : Var) (signed : Bool) (left right : Operand)
  | mod (dest : Var) (signed : Bool) (left right : Operand)
  | fdiv (dest : Var) (left right : Operand)
  | not (dest : Var) (val : Operand)
  | negate (dest : Var) (val : Operand)
  | offset (dest : Var) (src : Operand) (offset : ℕ)
  | initializeBytes (dest : Var) (bytes : List UInt8) (layout : Layout)
  | initString (dest : Var) (string : String)
  | write (dest : Operand) (val : Operand)
  | read (dest : Var) (src : Operand) (ty : IrType)
  | copy (dest src : Operand) (size : ℕ)
  | clone (dest src : Operand) (cloneFn : ℕ)
  | eq (dest : Var) (left right : Operand) (eqFn : ℕ)
  | drop (var : Operand) (dropFn : ℕ)

structure Block where
  label : LabelRef
  instructions : List Instruction

/-- `lir::Signature`. -/
structure Signature where
  parameters : List (Identifier × IrType)
  context : Bool
  returnPtr : Bool
  returnType : Option IrType
  deriving DecidableEq

/-- A location is a variable of a value type, or some offset in what a pointer points to. -/
inductive Location where
  | var (v : Var)
  | pointer (base : Var) (offset : ℕ)
  deriving DecidableEq, Repr

/-- `Lowerer::var`. -/
def lowerVar (v : Mir.Var) : Var where
  scope := v.scope
  kind := match v.kind with
    | .explicit ident => .explicit ident
    | .tmp idx => .tmp idx

end Roto.Lir
