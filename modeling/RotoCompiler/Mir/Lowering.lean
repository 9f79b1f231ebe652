import RotoCompiler.Ast.Fold
import RotoCompiler.Mir.Matches

/-!
# Lowering of items (mir/lower.rs, mir/lower/match_expr.rs, label.rs)

The whole lowerer. A computation gives nothing where the compiler panics; the `ice!`s, the
failed `unwrap`s and the indices out of bounds are all of that kind.
-/

namespace Roto.Mir
open TypeChecker (Typ TypeInfo ScopeGraph Payloads FunctionDefinition)
open Ast (Literal BinOp CompoundAssignOp ReturnKind Path Pattern Expr Alg)

/-! ### Labels -/

structure Label where
  identifier : Identifier
  internal : Bool
  parent : Option LabelRef
  counter : ℕ
  deriving DecidableEq, Repr

/-- A label is referred to by its place in the list. -/
abbrev LabelStore := List Label

namespace LabelStore

def newLabel (store : LabelStore) (identifier : Identifier) : LabelRef × LabelStore :=
  (store.length, store ++ [⟨identifier, false, none, 0⟩])

def wrapInternal (store : LabelStore) (parent : LabelRef) (identifier : Identifier) :
    LabelRef × LabelStore :=
  (store.length, store ++ [⟨identifier, true, some parent, 0⟩])

def next (store : LabelStore) (previous : LabelRef) : Option (LabelRef × LabelStore) :=
  store[previous]?.map fun label =>
    (store.length, store ++ [{ label with counter := label.counter + 1 }])

end LabelStore

/-! ### The state -/

structure Lowering extends Lowerer where
  labelStore : LabelStore
  returnType : Ty

abbrev Lower := StateT Lowering Option

/-- The order in which a hash map or set gives its elements. The label tells apart the matches. -/
structure HashOrder where
  discriminants : LabelRef → List ℕ → List ℕ
  cases : LabelRef → List (ℕ × LabelRef) → List (ℕ × LabelRef)
  discriminants_perm : ∀ l ds, (discriminants l ds).Perm ds
  cases_perm : ∀ l cs, (cases l cs).Perm cs

/-- What lowering reads: the tables of the type checker, the registered types by their ids and
names, the v-tables that registered functions ask for, three ids of Rust types, and the
signatures and full names of items. -/
structure LowerEnv where
  info : TypeInfo
  graph : ScopeGraph
  payloads : Payloads
  types : List (ℕ × ResolvedName)
  vtables : ℕ → List ℕ
  rotoString : ℕ
  ipPrefix : ℕ
  erasedList : ℕ
  signatures : MetaId → TypeChecker.Signature
  fullName : ResolvedName → Identifier
  order : HashOrder

/-- `type_of` and `convert`. -/
def LowerEnv.ty (env : LowerEnv) (id : MetaId) : Ty := env.info.convert (env.info.typeOf id)

/-- `Lowerer::find_method`. -/
def LowerEnv.findMethod (env : LowerEnv) (typeId : ℕ) (ident : Identifier) : Option ℕ := do
  let ty ← env.types.find? fun t => t.1 = typeId
  let dec ← env.graph.declarations ty.2
  let scope ← dec.scope
  let dec ← env.graph.declarations ⟨scope, ident⟩
  match dec.kind, env.payloads.function dec.name with
  | .method, some (.runtime r, _) => some r
  | _, _ => none

namespace Lowering

def ice {α : Type} : Lower α := fun _ => none

def unwrap {α : Type} (x : Option α) : Lower α := fun s => x.map fun a => (a, s)

/-! ### Blocks, labels and temporaries -/

def emitAll (is : List Instruction) : Lower Unit := fun s =>
  some ((), { s with instructions := s.instructions ++ is })

def emit (i : Instruction) : Lower Unit := emitAll [i]

def newBlock (label : LabelRef) : Lower Unit := fun s =>
  some ((), { s with
    blocks := s.blocks ++ [⟨s.label, s.instructions⟩], label := label, instructions := [] })

def currentLabel : Lower LabelRef := fun s => some (s.label, s)

def wrapInternal (parent : LabelRef) (identifier : Identifier) : Lower LabelRef := fun s =>
  some (s.labelStore.length,
    { s with labelStore := (s.labelStore.wrapInternal parent identifier).2 })

def nextLabel (previous : LabelRef) : Lower LabelRef := fun s =>
  (s.labelStore.next previous).map fun r => (r.1, { s with labelStore := r.2 })

def undroppedTmp : Lower Var := fun s =>
  some (s.nextTmp, { s with tmpIdx := s.tmpIdx + 1 })

def tmp (ty : Ty) : Lower Var := fun s =>
  some (s.nextTmp, { s with toLowerer := s.toLowerer.tmp ty })

/-- A variable that is no part of a stack slot. -/
def declare (var : Var) (ty : Ty) : Lower Unit := fun s =>
  some ((), { s with vars := s.vars ++ [(var, ty)] })

/-- A variable that is in a stack slot once more. -/
def pushLive (var : Var) (ty : Ty) : Lower Unit := fun s =>
  some ((), { s with stackSlot := s.stackSlot ++ [(var, ty)] })

def addLiveVariable (var : Var) (ty : Ty) : Lower Unit := fun s =>
  some ((), { s with toLowerer := s.toLowerer.addLiveVariable var ty })

/-- The type is the one that the variable has in the stack slot. -/
def removeLiveVariable (var : Var) : Lower Ty := fun s =>
  match s.stackSlot.find? fun v => v.1 = var with
  | none => none
  | some v => (s.toLowerer.removeLiveVariable var).map fun l => (v.2, { s with toLowerer := l })

def doAssign (dest : Place) (ty : Ty) (val : Value) : Lower Unit := fun s =>
  (s.toLowerer.doAssign dest ty val).map fun l => ((), { s with toLowerer := l })

def assignToVar (value : Value) (ty : Ty) : Lower Var :=
  match value with
  | .move x => pure x
  | value => do
    let dest ← tmp ty
    doAssign (Place.new dest ty) ty value
    return dest

def pushSlot : Lower Unit := fun s =>
  some ((), { s with stackSlot := [], outerSlots := s.stackSlot :: s.outerSlots })

/-- After the outermost slot there is none, and nothing is live. -/
def popSlot : Lower (List (Var × Ty)) := fun s =>
  some (s.stackSlot,
    { s with stackSlot := s.outerSlots.headD [], outerSlots := s.outerSlots.tail })

/-- The instructions that drop a stack slot, in reverse order. -/
def dropsOf (slot : List (Var × Ty)) : List Instruction :=
  slot.reverse.map fun v => .drop (Place.new v.1 v.2) v.2

def dropSlot : Lower Unit := do
  let toDrop ← popSlot
  emitAll (dropsOf toDrop)

def dropVar (var : Var) : Lower Unit := do
  let ty ← removeLiveVariable var
  emit (.drop (Place.new var ty) ty)

/-- `return_value`: all slots are dropped and stay open. -/
def returnValue (val : Value) : Lower Value := do
  let returnType ← fun s => some (s.returnType, s)
  let var ← assignToVar val returnType
  let _ ← removeLiveVariable var
  let slots ← fun s => some (s.stackSlot :: s.outerSlots, s)
  emitAll (slots.flatMap dropsOf)
  emit (.ret var)
  return .const .unit .unit

/-- An expression that is a part of another one, with its lowering. -/
abbrev Part := Expr × Lower Value

abbrev BlockPart := Ast.Block × Lower Value

abbrev Arm := Pattern × Option Part × BlockPart

variable (env : LowerEnv)

/-! ### Values and calls -/

/-- The loop of `make_enum`, from the field `i`. -/
def assignFields (dest : Var) (ty : Ty) (variant : Identifier) : ℕ → List (Value × Ty) → Lower Unit
  | _, [] => return ()
  | i, (value, fieldTy) :: arguments => do
    doAssign ⟨dest, ty, [.variantField variant i]⟩ fieldTy value
    assignFields dest ty variant (i + 1) arguments

def makeEnum (ty : Ty) (variant : Identifier) (arguments : List (Value × Ty)) : Lower Value :=
  match ty with
  | .enum variants =>
    if variants.any fun v => v.1 = variant then do
      let dest ← tmp ty
      emit (.setDiscriminant dest ty variant)
      assignFields dest ty variant 0 arguments
      return .move dest
    else ice
  | _ => ice

/-- The value of a `return`, with its type. -/
def returnedValue : Option Part → Lower (Value × Ty)
  | some e => do
    let val ← e.2
    return (val, env.ty e.1.id)
  | none => return (.const .unit .unit, .unit)

def returnE (kind : ReturnKind) (e : Option Part) : Lower Value := do
  let val ← returnedValue env e
  let returnType ← fun s => some (s.returnType, s)
  match kind with
  | .return => returnValue val.1
  | .accept => do
    let val ← makeEnum returnType "Accept" [val]
    returnValue val
  | .reject => do
    let val ← makeEnum returnType "Reject" [val]
    returnValue val

def literal (l : Meta Literal) : Lower Value := return .const l.node (env.ty l.id)

/-- An argument is dropped by the callee. -/
def passArgument (ty : Ty) (val : Value) : Lower Var := do
  let t ← undroppedTmp
  declare t ty
  doAssign (Place.new t ty) ty val
  return t

def passArguments : List Part → Lower (List Var)
  | [] => return []
  | a :: arguments => do
    let op ← a.2
    let t ← passArgument (env.ty a.1.id) op
    let ts ← passArguments arguments
    return t :: ts

def passReceiver : Option (Value × Typ) → Lower (List Var)
  | none => return []
  | some (receiver, ty) => do
    let t ← passArgument (env.info.convert ty) receiver
    return [t]

def normalizedFunctionCall (func : TypeChecker.Function) (receiver : Option (Value × Typ))
    (arguments : List Part) : Lower Value := do
  let receiver ← passReceiver env receiver
  let arguments ← passArguments env arguments
  let args := receiver ++ arguments
  let mirSignature : Signature :=
    ⟨func.signature.parameterTypes.map env.info.convert,
      env.info.convert func.signature.returnType⟩
  match func.definition with
  | .runtime funcRef => do
    let tys ← unwrap ((env.vtables funcRef).mapM fun idx => func.signature.types[idx]?)
    return .callRuntime funcRef args (tys.map env.info.convert) mirSignature
  | .roto => return .call func.name args mirSignature

/-- The arguments of an enum constructor are lowered before any of them is assigned. -/
def constructorArguments : List Part → Lower (List (Value × Ty))
  | [] => return []
  | a :: arguments => do
    let val ← a.2
    let vals ← constructorArguments arguments
    return (val, env.ty a.1.id) :: vals

def functionCall (id : MetaId) (function : Expr) (receiver : Option Part)
    (arguments : List Part) : Lower Value :=
  match function, receiver with
  | .path _ p, _ =>
    match env.info.pathKind p.id with
    | .method value _ _ signature => do
      let op ← unwrap (pathValue env.info value)
      let ty ← unwrap signature.parameterTypes.head?
      normalizedFunctionCall env (env.info.function id) (some (op, ty)) arguments
    | .function _ _ _ => normalizedFunctionCall env (env.info.function id) none arguments
    | .staticMethod _ _ _ => normalizedFunctionCall env (env.info.function id) none arguments
    | .enumConstructor _ variant => do
      let vals ← constructorArguments env arguments
      makeEnum (env.ty id) variant.name vals
    | .value _ => ice
  | .access _ _ _, some e => do
    let val ← e.2
    normalizedFunctionCall env (env.info.function id) (some (val, env.info.typeOf e.1.id))
      arguments
  | _, _ => ice

def access (e : Part) (field : Meta Identifier) : Lower Value := do
  let op ← e.2
  let var ← assignToVar op (env.ty e.1.id)
  return .clone ⟨var, env.ty e.1.id, [.field field.node]⟩

def path (id : MetaId) (p : Path) : Lower Value :=
  match env.info.pathKind p.id with
  | .value value => unwrap (pathValue env.info value)
  | .enumConstructor _ variant => do
    let dest ← tmp (env.ty id)
    emit (.setDiscriminant dest (env.ty id) variant.name)
    return .move dest
  | _ => ice

def assignRecord (dest : Var) (ty : Ty) : List (Meta Identifier × Part) → Lower Unit
  | [] => return ()
  | (s, e) :: fields => do
    let op ← e.2
    doAssign ⟨dest, ty, [.field s.node]⟩ (env.ty e.1.id) op
    assignRecord dest ty fields

def record (id : MetaId) (fields : List (Meta Identifier × Part)) : Lower Value := do
  let dest ← tmp (env.ty id)
  assignRecord env dest (env.ty id) fields
  return .move dest

def not (e : Part) : Lower Value := do
  let val ← e.2
  let var ← assignToVar val .bool
  return .not var

def negate (e : Part) : Lower Value := do
  let val ← e.2
  let var ← assignToVar val (env.ty e.1.id)
  return .negate var (env.ty e.1.id)

def pushElements (t unitTmp : Var) (ty inner : Ty) : List Part → Lower Unit
  | [] => return ()
  | e :: es => do
    let listVar ← assignToVar (.clone (Place.new t ty)) ty
    let _ ← removeLiveVariable listVar
    let elem ← e.2
    let elemVar ← passArgument (env.ty e.1.id) elem
    let funcRef ← unwrap (env.findMethod env.erasedList "push")
    emit (.assign (Place.new unitTmp .unit) .unit
      (.callRuntime funcRef [listVar, elemVar] [] ⟨[ty, inner], .unit⟩))
    pushElements t unitTmp ty inner es

def list (id : MetaId) (es : List Part) : Lower Value :=
  match env.ty id with
  | .list inner => do
    let t ← tmp (env.ty id)
    let funcRef ← unwrap (env.findMethod env.erasedList "new")
    emit (.assign (Place.new t (env.ty id)) (env.ty id)
      (.callRuntime funcRef [] [inner] ⟨[], env.ty id⟩))
    let unitTmp ← tmp .unit
    pushElements env t unitTmp (env.ty id) inner es
    return .move t
  | _ => ice

/-- `assign` with `assignValue` for the part after the expression. -/
def assign (p : Path) (e : Part) : Lower Value :=
  match env.info.pathKind p.id with
  | .value v => do
    let val ← e.2
    let _ ← fun s => (assignValue (placeOf env.info v) (env.ty e.1.id) val s.toLowerer).map
      fun l => ((), { s with toLowerer := l })
    return .const .unit .unit
  | _ => ice

/-! ### Operators -/

def operands (op : BinOp) (l r : Part) : Lower Value := do
  let left ← l.2
  let left ← assignToVar left (env.ty l.1.id)
  let right ← r.2
  let right ← assignToVar right (env.ty r.1.id)
  return .binOp left op (env.ty l.1.id) right

def removeAll : List Var → Lower Unit
  | [] => return ()
  | var :: vars => do
    let _ ← removeLiveVariable var
    removeAll vars

/-- The arguments are dropped by the callee. -/
def callRuntime (funcRef : ℕ) (vtables : List Ty) (mirSignature : Signature) (args : List Var) :
    Lower Value := do
  removeAll args
  return .callRuntime funcRef args vtables mirSignature

def desugaredBinop (kind : ℕ) (name : Identifier) (returnType : Typ) (l : Part) (lTy : Typ)
    (r : Part) (rTy : Typ) : Lower Value := do
  let funcRef ← unwrap (env.findMethod kind name)
  let left ← l.2
  let left ← assignToVar left (env.info.convert lTy)
  let right ← r.2
  let right ← assignToVar right (env.info.convert rTy)
  let returnType := env.info.convert returnType
  let t ← tmp returnType
  let val ← callRuntime funcRef [] ⟨[env.info.convert lTy, env.info.convert rTy], returnType⟩
    [left, right]
  doAssign (Place.new t returnType) returnType val
  return .move t

/-- The right-hand side has a block of its own, that is left out if the left-hand side decides. -/
def shortcircuitBinop (l r : Part) (lblOther : Identifier) (otherIf : ℕ) : Lower Value := do
  let current ← currentLabel
  let lblCont ← nextLabel current
  let lblOther ← wrapInternal current lblOther
  let t ← undroppedTmp
  pushSlot
  let val ← l.2
  doAssign (Place.new t .bool) .bool val
  dropSlot
  emit (.switch t [(otherIf, lblOther)] (some lblCont))
  newBlock lblOther
  pushSlot
  let val ← r.2
  doAssign (Place.new t .bool) .bool val
  dropSlot
  addLiveVariable t .bool
  emit (.jump lblCont)
  newBlock lblCont
  return .move t

def binop (l : Part) (op : BinOp) (r : Part) : Lower Value :=
  let lTy := env.info.typeOf l.1.id
  if op = .eq then operands env .eq l r
  else if op = .ne then operands env .ne l r
  else if lTy = .string then
    if op = .add then desugaredBinop env env.rotoString "append" .string l .string r .string
    else ice
  else if lTy = .ipAddr then
    if op = .div then desugaredBinop env env.ipPrefix "new" .ipPrefix l .ipAddr r .u8
    else ice
  else if env.info.isListType lTy then
    if op = .add then desugaredBinop env env.erasedList "concat" lTy l lTy r lTy
    else ice
  else if op = .and then shortcircuitBinop l r "and_other" 1
  else if op = .or then shortcircuitBinop l r "or_other" 0
  else operands env op l r

/-- The value of `p op= e` is that of `p op e`. -/
def compoundAssign (binopId pathExprId : MetaId) (p : Path) (op : CompoundAssignOp) (e : Part) :
    Lower Value :=
  let left : Part := (.path pathExprId p, path env pathExprId p)
  assign env p (.binOp binopId (.path pathExprId p) op.binOp e.1, binop env left op.binOp e)

/-! ### Control flow -/

/-- A block assigned to the variable that a branch leaves its value in. -/
def branchInto (res : Var) (ty : Ty) (block : Lower Value) : Lower Unit := do
  let op ← block
  emit (.assign (Place.new res ty) ty op)

def elseBranch (res : Var) (ty : Ty) (lblElse lblCont : LabelRef) :
    Option BlockPart → Lower Unit
  | some b => do
    newBlock lblElse
    branchInto res ty b.2
    emit (.jump lblCont)
  | none => return ()

def ifElse (id : MetaId) (c : Part) (t : BlockPart) (e : Option BlockPart) :
    Lower Value := do
  let examinee ← c.2
  let examinee ← assignToVar examinee .bool
  let current ← currentLabel
  let lblCont ← nextLabel current
  let lblThen ← wrapInternal current "if-then"
  let lblElse ← wrapInternal current "if-else"
  emit (.switch examinee [(1, lblThen)] (some (if e.isSome then lblElse else lblCont)))
  newBlock lblThen
  let op ← t.2
  let res ← undroppedTmp
  emit (.assign (Place.new res (env.ty id)) (env.ty id) op)
  emit (.jump lblCont)
  elseBranch res (env.ty id) lblElse lblCont e
  newBlock lblCont
  addLiveVariable res (env.ty id)
  return .move res

def whileE (c : Part) (b : BlockPart) : Lower Value := do
  let current ← currentLabel
  let lblCont ← nextLabel current
  let lblCondition ← wrapInternal current "while-condition"
  let lblBody ← wrapInternal current "while-body"
  emit (.jump lblCondition)
  newBlock lblCondition
  let examinee ← c.2
  let examinee ← assignToVar examinee .bool
  emit (.switch examinee [(1, lblBody)] (some lblCont))
  newBlock lblBody
  let val ← b.2
  let _ ← assignToVar val .unit
  emit (.jump lblCondition)
  newBlock lblCont
  return .const .unit .unit

def u64 (n : Int) : Value := .const (.integer n (some .u64)) .u64

/-- The block that increments the index of a `for`. -/
def forIncrement (indexVar : Var) (lblIncrement lblCondition : LabelRef) : Lower Unit := do
  newBlock lblIncrement
  let oneVar ← assignToVar (u64 1) .u64
  emit (.assign (Place.new indexVar .u64) .u64 (.binOp indexVar .add .u64 oneVar))
  emit (.jump lblCondition)

/-- The block that gets the next element of a `for`. -/
def forCondition (listVar indexVar optElemVar : Var) (listTy optElemTy : Ty)
    (lblCondition lblBody lblCont : LabelRef) : Lower Unit := do
  newBlock lblCondition
  let funcRef ← unwrap (env.findMethod env.erasedList "get")
  let newListVar ← assignToVar (.clone (Place.new listVar listTy)) listTy
  let _ ← removeLiveVariable newListVar
  emit (.assign (Place.new optElemVar optElemTy) optElemTy
    (.callRuntime funcRef [newListVar, indexVar] [] ⟨[listTy, .u64], optElemTy⟩))
  let discriminant ← undroppedTmp
  emitAll (switchCode discriminant optElemVar [(0, lblBody)] (some lblCont))

def explicitVar (name : Meta Identifier) : Var :=
  ⟨(env.info.resolvedName name.id).scope, .explicit (env.info.resolvedName name.id).ident⟩

def forE (name : Meta Identifier) (e : Part) (body : BlockPart) : Lower Value := do
  let current ← currentLabel
  let lblCont ← nextLabel current
  let lblIncrement ← wrapInternal current "for-increment"
  let lblCondition ← wrapInternal current "for-condition"
  let lblBody ← wrapInternal current "for-body"
  let elemTy := env.ty name.id
  let optElemTy := env.info.convert (.option (env.info.typeOf name.id))
  let optElemVar ← undroppedTmp
  declare optElemVar optElemTy
  let listTy := env.ty e.1.id
  let listValue ← e.2
  let listVar ← assignToVar listValue listTy
  let indexVar ← assignToVar (u64 0) .u64
  emit (.jump lblCondition)
  forIncrement indexVar lblIncrement lblCondition
  forCondition env listVar indexVar optElemVar listTy optElemTy lblCondition lblBody lblCont
  newBlock lblBody
  pushSlot
  declare (explicitVar env name) elemTy
  pushLive optElemVar optElemTy
  pushLive (explicitVar env name) elemTy
  doAssign (Place.new (explicitVar env name) elemTy) elemTy
    (.clone ⟨optElemVar, optElemTy, [.variantField "Some" 0]⟩)
  let val ← body.2
  let _ ← assignToVar val .unit
  dropSlot
  emit (.jump lblIncrement)
  newBlock lblCont
  return .const .unit .unit

def questionMark (e : Part) : Lower Value := do
  let current ← currentLabel
  let lblReturnNone ← wrapInternal current "return-none"
  let continueLbl ← nextLabel current
  let examinee ← e.2
  let examinee ← assignToVar examinee (env.ty e.1.id)
  let discriminant ← undroppedTmp
  emitAll (switchCode discriminant examinee [(0, continueLbl)] (some lblReturnNone))
  newBlock lblReturnNone
  let returnType ← fun s => some (s.returnType, s)
  let val ← makeEnum returnType "None" []
  let _ ← returnValue val
  newBlock continueLbl
  return .clone ⟨examinee, env.ty e.1.id, [.variantField "Some" 0]⟩

/-! ### F-strings -/

def fStringPart (part : MetaId × (String ⊕ Part)) : Lower Value :=
  match part.2 with
  | .inl s => return .const (.string s) .string
  | .inr e => do
    let val ← e.2
    normalizedFunctionCall env (env.info.function part.1)
      (some (val, env.info.typeOf e.1.id)) []

def appendParts (string : Var) (funcRef : ℕ) : List (MetaId × (String ⊕ Part)) → Lower Unit
  | [] => return ()
  | part :: parts => do
    let newString ← fStringPart env part
    let newString ← assignToVar newString .string
    let val ← callRuntime funcRef [] ⟨[.string, .string], .string⟩ [string, newString]
    pushLive string .string
    doAssign (Place.new string .string) .string val
    appendParts string funcRef parts

def fString (parts : List (MetaId × (String ⊕ Part))) : Lower Value := do
  let string ← assignToVar (.const (.string "") .string) .string
  let funcRef ← unwrap (env.findMethod env.rotoString "append")
  appendParts env string funcRef parts
  return .move string

/-! ### Matches -/

/-- An arm, with its discriminant and the label of its block. -/
structure Branch where
  discriminant : Option ℕ
  pattern : Pattern
  guard : Option Part
  body : Lower Value
  label : LabelRef

def caseLabels (lblPrefix : LabelRef) : List ℕ → Lower (List (ℕ × LabelRef))
  | [] => return []
  | d :: ds => do
    let lbl ← wrapInternal lblPrefix s!"case_{d}"
    let rest ← caseLabels lblPrefix ds
    return (d, lbl) :: rest

/-- `branches` and `arm_labels`, from the arm with index `idx`. -/
def armBranches (lblPrefix : LabelRef) : ℕ → List (Option ℕ) →
    List Arm → Lower (List Branch)
  | idx, d :: ds, arm :: arms => do
    let lbl ← wrapInternal lblPrefix s!"arm_{idx}"
    let rest ← armBranches lblPrefix (idx + 1) ds arms
    return ⟨d, arm.1, arm.2.1, arm.2.2.2, lbl⟩ :: rest
  | _, _, _ => return []

/-- The variables that a pattern binds, with the types of the fields. -/
def bindings (fields : List (Meta Identifier)) (tys : List Ty) : List (Var × Ty) :=
  (fields.map (explicitVar env)).zip tys

/-- The fields of a variant are extracted, from the one with index `i`. -/
def extractFields (examinee : Var) (examineeTy : Ty) (variant : Identifier) :
    ℕ → List (Var × Ty) → Lower Unit
  | _, [] => return ()
  | i, (var, fieldTy) :: rest => do
    addLiveVariable var fieldTy
    doAssign (Place.new var fieldTy) fieldTy
      (.clone ⟨examinee, examineeTy, [.variantField variant i]⟩)
    extractFields examinee examineeTy variant (i + 1) rest

def bindFields (examinee : Var) (examineeTy : Ty) (variant : Option (Identifier × List Ty))
    (pattern : Pattern) : Lower Unit :=
  match pattern with
  | .enumVariant _ (some fields) => do
    let variant ← unwrap variant
    extractFields examinee examineeTy variant.1 0 (bindings env fields variant.2)
  | _ => return ()

/-- One round of the loop of `match_case`, with what it leaves to drop where the guard fails. -/
def guardBranch (lbl nextLbl : LabelRef) (i : ℕ) (branch : Branch) (toDrop : List (Var × Ty)) :
    Lower Unit :=
  match branch.guard with
  | some guard => do
    let op ← guard.2
    let op ← assignToVar op .bool
    let intermediateLbl ← wrapInternal lbl s!"guard_{i}_drop"
    emit (.switch op [(1, branch.label)] (some intermediateLbl))
    newBlock intermediateLbl
    emitAll (dropsOf toDrop)
    emit (.jump nextLbl)
  | none => emit (.jump branch.label)

/-- The loop of `match_case`, from the branch with index `i`. -/
def guardChain (examinee : Var) (examineeTy : Ty) (variant : Option (Identifier × List Ty))
    (lbl : LabelRef) : ℕ → LabelRef → List Branch → Lower Unit
  | _, _, [] => return ()
  | i, guardLbl, branch :: branches => do
    newBlock guardLbl
    pushSlot
    bindFields env examinee examineeTy variant branch.pattern
    let nextLbl ← wrapInternal lbl s!"guard_{i + 1}"
    let toDrop ← popSlot
    guardBranch lbl nextLbl i branch toDrop
    guardChain examinee examineeTy variant lbl (i + 1) nextLbl branches

def matchCase (examinee : Var) (examineeTy : Ty) (variant : Option (Identifier × List Ty))
    (lbl : LabelRef) (branches : List Branch) : Lower Unit := do
  newBlock lbl
  let guardLbl ← wrapInternal lbl "guard_0"
  emit (.jump guardLbl)
  guardChain env examinee examineeTy variant lbl 0 guardLbl branches

/-- The branches for a discriminant, and those for any. -/
def branchesFor (d : ℕ) (branches : List Branch) : List Branch :=
  branches.filter fun b => b.discriminant = some d ∨ b.discriminant = none

def defaultBranches (branches : List Branch) : List Branch :=
  branches.filter fun b => b.discriminant = none

def matchCases (examinee : Var) (examineeTy : Ty) (variants : Variants) (branches : List Branch) :
    List (ℕ × LabelRef) → Lower Unit
  | [] => return ()
  | (d, lbl) :: cases => do
    let variant ← unwrap variants[d]?
    matchCase env examinee examineeTy (some variant) lbl (branchesFor d branches)
    matchCases examinee examineeTy variants branches cases

/-- The variables of a pattern in the slot of its arm. -/
def armSlot (variants : Variants) (branch : Branch) : Lower (List (Var × Ty)) :=
  match branch.pattern with
  | .enumVariant _ (some fields) => do
    let d ← unwrap branch.discriminant
    let variant ← unwrap variants[d]?
    return bindings env fields variant.2
  | _ => return []

def pushAll : List (Var × Ty) → Lower Unit
  | [] => return ()
  | (var, ty) :: rest => do
    pushLive var ty
    pushAll rest

def armBlocks (variants : Variants) (out : Var) (ty : Ty) (continueLbl : LabelRef) :
    List Branch → Lower Unit
  | [] => return ()
  | branch :: branches => do
    pushSlot
    let slot ← armSlot env variants branch
    pushAll slot
    newBlock branch.label
    branchInto out ty branch.body
    dropSlot
    emit (.jump continueLbl)
    armBlocks variants out ty continueLbl branches

def defaultCase (examinee : Var) (examineeTy : Ty) (defaultLbl : LabelRef)
    (branches : List Branch) : Lower Unit :=
  match branches with
  | [] => return ()
  | branch :: branches =>
    matchCase env examinee examineeTy none defaultLbl (branch :: branches)

/-- What follows on the switch of a match: the cases, and the blocks of the arms. -/
def matchBlocks (examinee : Var) (examineeTy ty : Ty) (variants : Variants)
    (branches : List Branch) (cases : List (ℕ × LabelRef)) (defaultLbl continueLbl : LabelRef) :
    Lower Value := do
  matchCases env examinee examineeTy variants branches cases
  defaultCase env examinee examineeTy defaultLbl (defaultBranches branches)
  let out ← undroppedTmp
  armBlocks env variants out ty continueLbl branches
  newBlock continueLbl
  addLiveVariable out ty
  return .move out

/-- A match with the labels that it starts with. -/
def matchWith (id : MetaId) (e : Part) (arms : List Arm) (variants : Variants)
    (current lblPrefix defaultLbl : LabelRef) : Lower Value := do
  let continueLbl ← nextLabel current
  let ds ← unwrap (arms.mapM fun arm => patternDiscriminant variants arm.1)
  let cases ← caseLabels lblPrefix (env.order.discriminants lblPrefix (ds.filterMap fun d => d).dedup)
  let cases := env.order.cases lblPrefix cases
  let examinee ← e.2
  let examinee ← assignToVar examinee (env.ty e.1.id)
  let discriminant ← undroppedTmp
  emitAll (switchCode discriminant examinee cases (defaultBranch ds defaultLbl))
  let branches ← armBranches lblPrefix 0 ds arms
  matchBlocks env examinee (env.ty e.1.id) (env.ty id) variants branches cases defaultLbl continueLbl

def matchE (id : MetaId) (e : Part) (arms : List Arm) : Lower Value :=
  match env.ty e.1.id with
  | .enum variants => do
    let current ← currentLabel
    let lblPrefix ← wrapInternal current "match"
    let defaultLbl ← wrapInternal lblPrefix "default"
    matchWith env id e arms variants current lblPrefix defaultLbl
  | _ => ice

/-! ### Blocks and items -/

/-- A `let` with its name, or without one an expression. -/
def stmt (s : Option (Meta Identifier) × Part) : Lower Unit :=
  match s.1 with
  | some ident => do
    let val ← s.2.2
    let dest : Var := ⟨(env.info.resolvedName ident.id).scope, .explicit ident.node⟩
    addLiveVariable dest (env.ty ident.id)
    doAssign (Place.new dest (env.ty ident.id)) (env.ty ident.id) val
  | none => do
    let value ← s.2.2
    let value ← assignToVar value (env.ty s.2.1.id)
    dropVar value

def stmts : List (Option (Meta Identifier) × Part) → Lower Unit
  | [] => return ()
  | s :: rest => do
    stmt env s
    stmts rest

def lastValue : Option Part → Lower Value
  | some e => e.2
  | none => return .const .unit .unit

def block (id : MetaId) (ss : List (Option (Meta Identifier) × Part)) (last : Option Part) :
    Lower Value := do
  pushSlot
  stmts env ss
  let op ← lastValue last
  let finalVar ← assignToVar op (env.ty id)
  let _ ← removeLiveVariable finalVar
  let toDrop ← popSlot
  emitAll (if env.info.diverges id then [] else dropsOf toDrop)
  return .move finalVar

def blockExpr (b : BlockPart) : Lower Value := do
  let val ← b.2
  let res ← undroppedTmp
  emit (.assign (Place.new res (env.ty b.1.id)) (env.ty b.1.id) val)
  addLiveVariable res (env.ty b.1.id)
  return .move res

/-- `Lowerer::expr`, and `Lowerer::block` for blocks. -/
def alg : Alg (Lower Value) (Lower Value) where
  returnE _ kind e := returnE env kind e
  literal _ l := literal env l
  block _ b := blockExpr env b
  matchE id e arms := matchE env id e arms
  functionCall id f receiver args := functionCall env id f receiver args
  access _ e field := access env e field
  path id p := path env id p
  record id fields := record env id fields
  typedRecord id _ fields := record env id fields
  list id es := list env id es
  not _ e := not e
  assign _ p e := assign env p e
  compoundAssign _ binopId pathExprId p op e := compoundAssign env binopId pathExprId p op e
  binOp _ l op r := binop env l op r
  negate _ e := negate env e
  ifElse id c t e := ifElse env id c t e
  whileE _ c b := whileE c b
  forE _ name e b := forE env name e b
  questionMark _ e := questionMark env e
  fString _ parts := fString env parts
  body id ss last := block env id ss last

/-! ### Items -/

/-- `Lowerer::new` with the entry block. -/
def start (scope : ScopeRef) (returnType : Ty) (store : LabelStore) : Lowering where
  functionScope := scope
  tmpIdx := 0
  vars := []
  stackSlot := []
  outerSlots := []
  blocks := []
  label := (store.newLabel "$entry").1
  instructions := []
  labelStore := (store.newLabel "$entry").2
  returnType := returnType

def addParameters : List (Meta Identifier) → Lower Unit
  | [] => return ()
  | x :: params => do
    addLiveVariable (explicitVar env x) (env.ty x.id)
    addParameters params

/-- The blocks of a function, filtermap or test, up to its `return`. -/
def functionBody (params : List (Meta Identifier)) (returnType : Ty) (body : Ast.Block) :
    Lower Unit := do
  addParameters env params
  let last ← body.fold (alg env)
  let t ← assignToVar last returnType
  dropSlot
  emit (.ret t)

def constantBody (ty : Ty) (e : Expr) : Lower Unit := do
  pushSlot
  let last ← e.fold (alg env)
  let t ← assignToVar last ty
  let _ ← removeLiveVariable t
  dropSlot
  emit (.ret t)

/-- The blocks that have been built. -/
def allBlocks (s : Lowering) : List Block := s.blocks ++ [⟨s.label, s.instructions⟩]

def item (kind : ItemKind) (ident : Meta Identifier) (s : Lowering) : Item where
  ty := kind
  name := env.fullName (env.info.resolvedName ident.id)
  scope := env.info.functionScope ident.id
  vars := s.vars
  blocks := s.allBlocks
  tmpIdx := s.tmpIdx

end Lowering

/-- The declarations that are lowered; the types and imports are of the last kind. -/
inductive ItemDeclaration where
  | filterMap (ident : Meta Identifier) (params : List (Meta Identifier)) (body : Ast.Block)
  | function (ident : Meta Identifier) (params : List (Meta Identifier)) (body : Ast.Block)
  | test (ident : Meta Identifier) (body : Ast.Block)
  | const (ident : Meta Identifier) (expr : Expr)
  | other

namespace Lowering
variable (env : LowerEnv)

/-- `function_like`, with the return type that the lowerer was made for. -/
def functionLike (ident : Meta Identifier) (params : List (Meta Identifier)) (returnType : Typ)
    (body : Ast.Block) (store : LabelStore) : Option (Item × LabelStore) := do
  let s₀ := start (env.info.functionScope ident.id)
    (env.info.convert (env.signatures ident.id).returnType) store
  let r ← functionBody env params (env.info.convert returnType) body s₀
  let kind : ItemKind := .function (params.map (explicitVar env))
    ⟨params.map fun x => env.ty x.id, env.info.convert returnType⟩
  return (item env kind ident r.2, r.2.labelStore)

def constant (ident : Meta Identifier) (expr : Expr) (store : LabelStore) :
    Option (Item × LabelStore) := do
  let s₀ := start (env.info.functionScope ident.id) (env.ty ident.id) store
  let r ← constantBody env (env.ty ident.id) expr s₀
  let kind : ItemKind := .constant (env.ty ident.id) (env.info.resolvedName ident.id)
  return (item env kind ident r.2, r.2.labelStore)

/-- One round of `tree`, with the name that the item is stored under. -/
def declaration (store : LabelStore) :
    ItemDeclaration → Option (Option (ResolvedName × Item) × LabelStore)
  | .filterMap ident params body => do
    let r ← functionLike env ident params (env.signatures ident.id).returnType body store
    return (some (env.info.resolvedName ident.id, r.1), r.2)
  | .function ident params body => do
    let dec ← env.graph.declarations (env.info.resolvedName ident.id)
    let func ← env.payloads.function dec.name
    let r ← functionLike env ident params func.2.returnType body store
    return (some (env.info.resolvedName ident.id, r.1), r.2)
  | .test ident body => do
    let r ← functionLike env ident [] (.verdict .unit .unit) body store
    return (some (env.info.resolvedName ident.id, r.1), r.2)
  | .const ident expr => do
    let r ← constant env ident expr store
    return (some (env.info.resolvedName ident.id, r.1), r.2)
  | .other => some (none, store)

/-- The map of `tree`, the newest item first. -/
def declarations (store : LabelStore) (items : List (ResolvedName × Item)) :
    List ItemDeclaration → Option (List (ResolvedName × Item) × LabelStore)
  | [] => some (items, store)
  | d :: ds => do
    let r ← declaration env store d
    declarations r.2 (r.1.toList ++ items) ds

/-- Each item is taken out of the map when its name comes up. -/
def inOrder : List ResolvedName → List (ResolvedName × Item) → List Item
  | [], _ => []
  | n :: order, items =>
    match items.lookup n with
    | some item => item :: inOrder order (items.filter fun i => i.1 ≠ n)
    | none => inOrder order items

def tree (ds : List ItemDeclaration) (order : List ResolvedName) (store : LabelStore) :
    Option (List Item × LabelStore) :=
  (declarations env store [] ds).map fun r => (inOrder order r.1, r.2)

end Lowering

end Roto.Mir
