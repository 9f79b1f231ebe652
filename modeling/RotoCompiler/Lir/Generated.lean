import RotoCompiler.Lib.Worklist
import RotoCompiler.Lir.Lowerer

/-!
# Generated functions (lir/lower.rs, clones.rs, drops.rs, eq.rs)

The functions that clone, drop and compare the values of a type are generated when they are
first called. Each is lowered by a lowerer of its own, in the context that all of them share.
-/

namespace Roto.Lir
open Mir

/-- `Item` of a function. -/
structure Item where
  name : FunName
  scope : ScopeRef
  irSignature : Signature
  entryBlock : LabelRef
  vars : List (Var × ValueOrSlot)
  blocks : List Block

/-- What one lowerer leaves to the next, with the number of the next scope. -/
structure LowerCtx where
  labels : ℕ
  scopes : ℕ
  dropsToGenerate : List Ty
  clonesToGenerate : List Ty
  eqToGenerate : List Ty
  runtimeFunctions : List (ℕ × Signature)

/-- The lowerer of a function in a new scope. Its first block has a new label. -/
def LowerCtx.lowerer (ctx : LowerCtx) : Lowerer where
  blocks := []
  label := ctx.labels
  instructions := []
  functionScope := ctx.scopes
  tmpIdx := 0
  vars := []
  labels := ctx.labels + 1
  dropsToGenerate := ctx.dropsToGenerate
  clonesToGenerate := ctx.clonesToGenerate
  eqToGenerate := ctx.eqToGenerate
  runtimeFunctions := ctx.runtimeFunctions

/-- The context, as the lowerer has changed it. -/
def Lowerer.ctx (s : Lowerer) (scopes : ℕ) : LowerCtx where
  labels := s.labels
  scopes := scopes
  dropsToGenerate := s.dropsToGenerate
  clonesToGenerate := s.clonesToGenerate
  eqToGenerate := s.eqToGenerate
  runtimeFunctions := s.runtimeFunctions

/-- All blocks, with the one that instructions are emitted into at the end. -/
def Lowerer.allBlocks (s : Lowerer) : List Block := s.blocks ++ [⟨s.label, s.instructions⟩]

/-- `generate_clone`, `generate_drop` and `generate_eq`, from what emits the body. -/
def generateFunction (name : FunName) (irSignature : Signature) (body : ScopeRef → Lower Unit)
    (ctx : LowerCtx) : Option (Item × LowerCtx) := do
  let ((), s) ← body ctx.scopes ctx.lowerer
  return (⟨name, ctx.scopes, irSignature, ctx.labels, s.vars, s.allBlocks⟩,
    s.ctx (ctx.scopes + 1))

/-! ### Labels and temporaries -/

/-- `wrap_internal` for each of some names. -/
def wrapInternals : ℕ → Lower (List LabelRef)
  | 0 => return []
  | n + 1 => do
    let lbl ← wrapInternal
    let lbls ← wrapInternals n
    return lbl :: lbls

/-- A read into a new temporary. -/
def readTmp (ptr : Var) (irTy : IrType) : Lower Operand := do
  let dest ← newTmp irTy
  emit (.read dest (.place ptr) irTy)
  return .place dest

/-! ### Terminators -/

def Instruction.isTerminator : Instruction → Bool
  | .jump _ | .switch .. | .ret _ => true
  | _ => false

/-- The labels that an instruction goes to. -/
def Instruction.targets : Instruction → List LabelRef
  | .jump label => [label]
  | .switch _ branches default => branches.map (·.2) ++ [default]
  | _ => []

/-- A block ends in its only terminator. -/
def Block.terminated (b : Block) : Bool :=
  b.instructions.getLast?.any Instruction.isTerminator &&
    b.instructions.dropLast.all fun i => !i.isTerminator

def Item.labels (f : Item) : List LabelRef :=
  f.entryBlock :: (f.blocks.map Block.label ++
    f.blocks.flatMap fun b => b.instructions.flatMap Instruction.targets)

/-- Each label that is used is the label of exactly one block. -/
def Item.wellFormed (f : Item) : Bool :=
  f.blocks.all Block.terminated &&
    f.labels.all fun l => (f.blocks.filter fun b => b.label = l).length = 1

end Roto.Lir
