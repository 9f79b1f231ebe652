import RotoCompiler.Mir.Syntax
import RotoCompiler.TypeChecker.Assignments

/-!
# Lowering of paths and assignments (mir/lower.rs)

The lowerer builds the blocks of one item. It keeps the variables that are live in each open
stack slot, so that they are dropped when the slot is closed.
-/

namespace Roto.Mir
open TypeChecker (TypeInfo PathValue AssignExpr)
open Ast (Expr Path)

def Place.new (var : Var) (ty : Ty) : Place := ⟨var, ty, []⟩

/-- The finished blocks, the block that is being built, and the innermost stack slot apart from
the others. -/
structure Lowerer where
  functionScope : ScopeRef
  tmpIdx : ℕ
  vars : List (Var × Ty)
  stackSlot : List (Var × Ty)
  outerSlots : List (List (Var × Ty))
  blocks : List Block
  label : LabelRef
  instructions : List Instruction

namespace Lowerer

def emit (l : Lowerer) (instruction : Instruction) : Lowerer :=
  { l with instructions := l.instructions ++ [instruction] }

def emitAssign (l : Lowerer) (dest : Place) (ty : Ty) (value : Value) : Lowerer :=
  l.emit (.assign dest ty value)

def emitDrop (l : Lowerer) (val : Place) (ty : Ty) : Lowerer := l.emit (.drop val ty)

def addLiveVariable (l : Lowerer) (var : Var) (ty : Ty) : Lowerer :=
  { l with vars := l.vars ++ [(var, ty)], stackSlot := l.stackSlot ++ [(var, ty)] }

/-- `remove_live_variable`; `none` is the `ice!`. -/
def removeLiveVariable (l : Lowerer) (var : Var) : Option Lowerer :=
  if l.stackSlot.any (·.1 = var) then
    some { l with stackSlot := l.stackSlot.eraseP (·.1 = var) }
  else none

/-- The variable that `tmp` makes. -/
def nextTmp (l : Lowerer) : Var := ⟨l.functionScope, .tmp l.tmpIdx⟩

def tmp (l : Lowerer) (ty : Ty) : Lowerer :=
  { l with tmpIdx := l.tmpIdx + 1 }.addLiveVariable l.nextTmp ty

def doAssign (l : Lowerer) (dest : Place) (ty : Ty) (val : Value) : Option Lowerer :=
  match val with
  | .move var => (l.removeLiveVariable var).map fun l => l.emitAssign dest ty val
  | _ => some (l.emitAssign dest ty val)

end Lowerer

/-! ### Paths and assignments -/

/-- The place of a value, as if it were a variable. -/
def placeOf (info : TypeInfo) (v : PathValue) : Place where
  var := ⟨v.name.scope, .explicit v.name.ident⟩
  rootTy := info.convert v.rootTy
  projection := v.fields.map fun f => .field f.1

/-- `Lowerer::path_value`; `none` is the `panic!`. -/
def pathValue (info : TypeInfo) (v : PathValue) : Option Value :=
  match v.kind with
  | .local => some (.clone (placeOf info v))
  | .constant =>
    if v.fields ≠ [] then none
    else some (.constant v.name (info.convert v.rootTy))
  | .context x => some (.context x)

/-- The end of `Lowerer::assign`, after the expression gave a value. -/
def assignValue (place : Place) (ty : Ty) (val : Value) (l : Lowerer) : Option Lowerer :=
  match (l.tmp ty).doAssign (Place.new l.nextTmp ty) ty val with
  | none => none
  | some l' => (l'.emitDrop place ty).doAssign place ty (.move l.nextTmp)

/-- `Lowerer::assign`, with the lowering of expressions; the kind of the value is not looked
at. -/
def assign (info : TypeInfo) (lowerExpr : Expr → Lowerer → Option (Value × Lowerer))
    (path : Path) (e : Expr) (l : Lowerer) : Option (Value × Lowerer) :=
  match info.pathKind path.id with
  | .value v =>
    match lowerExpr e l with
    | none => none
    | some (val, l) =>
      (assignValue (placeOf info v) (info.convert (info.typeOf e.id)) val l).map fun l =>
        (.const .unit .unit, l)
  | _ => none

/-- The arms of `Lowerer::expr` for `Assign` and `CompoundAssign`. -/
def lowerAssignment (info : TypeInfo) (lowerExpr : Expr → Lowerer → Option (Value × Lowerer)) :
    AssignExpr → Lowerer → Option (Value × Lowerer)
  | .assign _ p e => assign info lowerExpr p e
  -- `compound_assign`
  | .compoundAssign _ binopId pathExprId p op e =>
    assign info lowerExpr p (.binOp binopId (.path pathExprId p) op.binOp e)

theorem lowerAssignment_eq (info : TypeInfo)
    (lowerExpr : Expr → Lowerer → Option (Value × Lowerer)) (a : AssignExpr) :
    lowerAssignment info lowerExpr a = assign info lowerExpr a.path a.value := by
  cases a <;> rfl

end Roto.Mir
