import RotoCompiler.Ast
import RotoCompiler.Mir.Ty

/-!
# The MIR (mir/mod.rs)

Variables, places in them, and instructions in basic blocks. A label is the number that
the label store gave it.
-/

namespace Roto.Mir

open Ast (Literal BinOp)

abbrev LabelRef := ℕ

inductive VarKind where
  | explicit (ident : Identifier)
  | tmp (idx : ℕ)
  deriving DecidableEq, Repr

structure Var where
  scope : ScopeRef
  kind : VarKind
  deriving DecidableEq, Repr

inductive Projection where
  | variantField (variant : Identifier) (n : ℕ)
  | field (ident : Identifier)
  deriving DecidableEq, Repr

/-- A part of a variable: fields of fields of a value of the root type. -/
structure Place where
  var : Var
  rootTy : Ty
  projection : List Projection

structure Signature where
  parameterTypes : List Ty
  returnType : Ty

inductive Value where
  | const (lit : Literal) (ty : Ty)
  | constant (name : ResolvedName) (ty : Ty)
  | context (offset : ℕ)
  | clone (place : Place)
  | discriminant (var : Var)
  | not (var : Var)
  | negate (var : Var) (ty : Ty)
  | move (var : Var)
  | binOp (left : Var) (binop : BinOp) (ty : Ty) (right : Var)
  | call (func : ResolvedName) (args : List Var) (mirSignature : Signature)
  | callRuntime (funcRef : ℕ) (args : List Var) (vtables : List Ty) (mirSignature : Signature)

inductive Instruction where
  | jump (label : LabelRef)
  | switch (examinee : Var) (branches : List (ℕ × LabelRef)) (default : Option LabelRef)
  | assign (dest : Place) (ty : Ty) (value : Value)
  | setDiscriminant (dest : Var) (ty : Ty) (variant : Identifier)
  | ret (var : Var)
  | drop (val : Place) (ty : Ty)

structure Block where
  label : LabelRef
  instructions : List Instruction

inductive ItemKind where
  | constant (ty : Ty) (name : ResolvedName)
  | function (parameters : List Var) (mirSignature : Signature)

/-- The type checker's types of an item are passed on to the LIR and are left out. -/
structure Item where
  ty : ItemKind
  name : Identifier
  scope : ScopeRef
  vars : List (Var × Ty)
  blocks : List Block
  tmpIdx : ℕ

end Roto.Mir
