import Mathlib.Order.Compare
import Std.Data.TreeMap.Lemmas
import Std.Data.TreeSet.Lemmas
import RotoCompiler.TypeChecker.Scope

/-!
# Cycle detection for constants (typechecker/value_cycle.rs)

The graph of references, Tarjan's algorithm on it, and the search for context fields. A
recursion gives nothing when it has no fuel left, and where the compiler panics. The names
are the vertices of the graph and have some order.
-/

namespace Roto.TypeChecker.ValueCycle

variable {V : Type} [LinearOrder V]

structure RefGraph (V : Type) [LinearOrder V] where
  references : Std.TreeMap V (Std.TreeSet V)

namespace RefGraph

def new : RefGraph V := ⟨∅⟩

def addEdge (g : RefGraph V) (name target : V) : RefGraph V :=
  ⟨g.references.insert name ((g.references.getD name ∅).insert target)⟩

def names (g : RefGraph V) : List V := g.references.keys

/-- `references.get(v).into_iter().flatten()`. -/
def refs (g : RefGraph V) (v : V) : List V := (g.references.getD v ∅).toList

end RefGraph

/-! ### Tarjan's algorithm -/

structure VertexState where
  index : ℕ
  lowlink : ℕ
  deriving DecidableEq, Repr

/-- The vertex that was pushed last is the first one of the stack. -/
structure State (V : Type) [LinearOrder V] where
  stack : List V
  vertices : Std.TreeMap V VertexState
  nextIndex : ℕ
  components : List (List V)

namespace State

def new : State V := ⟨[], ∅, 0, []⟩

def updateLowlink (s : State V) (v : V) (new : ℕ) : Option (State V) := do
  let current ← s.vertices[v]?
  return { s with vertices := s.vertices.insert v { current with lowlink := min current.lowlink new } }

/-- The new vertex on the stack. -/
def enter (s : State V) (v : V) : State V where
  stack := v :: s.stack
  vertices := s.vertices.insert v ⟨s.nextIndex, s.nextIndex⟩
  nextIndex := s.nextIndex + 1
  components := s.components

end State

/-- The loop that pops vertices up to and including `v`. -/
def popUntil (v : V) : List V → List V × List V
  | [] => ([], [])
  | w :: stack =>
    if w = v then ([w], stack)
    else
      let (component, rest) := popUntil v stack
      (w :: component, rest)

/-- The end of `strongly_connect`. -/
def finish (v : V) (s : State V) : Option (State V) := do
  let vState ← s.vertices[v]?
  if vState.index = vState.lowlink then
    let (component, rest) := popUntil v s.stack
    return { s with stack := rest, components := s.components ++ [component] }
  else return s

/-- One round of the loop of `strongly_connect`, with the recursive call. -/
def follow (connect : State V → V → Option (State V)) (v : V) (s : State V) (w : V) :
    Option (State V) := do
  if !s.vertices.contains w then
    let s ← connect s w
    let wState ← s.vertices[w]?
    s.updateLowlink v wState.lowlink
  else if w ∈ s.stack then
    let wState ← s.vertices[w]?
    s.updateLowlink v wState.index
  else return s

def stronglyConnect (g : RefGraph V) : ℕ → State V → V → Option (State V)
  | 0, _, _ => none
  | fuel + 1, s, v => do
    let s ← (g.refs v).foldlM (follow (stronglyConnect g fuel) v) (s.enter v)
    finish v s

def tarjan (g : RefGraph V) (fuel : ℕ) : Option (List (List V)) := do
  let s ← g.names.foldlM (fun s v =>
    if !s.vertices.contains v then stronglyConnect g fuel s v else some s) State.new
  return s.components

/-! ### The use of context fields -/

structure ContextSearch (V : Type) [LinearOrder V] where
  usesContext : Std.TreeMap V Bool
  visited : Std.TreeSet V

variable (declaration : V → Declaration)

def isConstant (v : V) : Bool := (declaration v).kind = .value .constant

def isContext (v : V) : Bool :=
  match (declaration v).kind with
  | .value (.context _) => true
  | _ => false

/-- The loop over the references, up to the first one that uses the context. -/
def anyUsesContext (determine : ContextSearch V → V → Option (Bool × ContextSearch V)) :
    ContextSearch V → List V → Option (Bool × ContextSearch V)
  | s, [] => some (false, s)
  | s, reference :: rest => do
    let (b, s) ← determine s reference
    if b then return (true, s) else anyUsesContext determine s rest

def determineUsesContext (g : RefGraph V) :
    ℕ → ContextSearch V → V → Option (Bool × ContextSearch V)
  | 0, _, _ => none
  | fuel + 1, s, name =>
    match s.usesContext[name]? with
    | some b => some (b, s)
    | none =>
      -- a cycle: no use of context is assumed, but that is not stored
      if s.visited.contains name then some (false, s)
      else if isContext declaration name then
        some (true, { s with usesContext := s.usesContext.insert name true })
      else do
        let s := { s with visited := s.visited.insert name }
        let (b, s) ← anyUsesContext (determineUsesContext g fuel) s (g.refs name)
        return (b, { s with usesContext := s.usesContext.insert name b })

/-- The loop of `context_check`, which stops at the first constant that uses the context. -/
def contextCheckFrom (g : RefGraph V) (fuel : ℕ) :
    ContextSearch V → List V → Option (Option V)
  | _, [] => some none
  | s, name :: rest =>
    if isConstant declaration name then do
      let (b, s) ← determineUsesContext declaration g fuel s name
      if b then return some name else contextCheckFrom g fuel s rest
    else contextCheckFrom g fuel s rest

def contextCheck (g : RefGraph V) (fuel : ℕ) : Option (Option V) :=
  contextCheckFrom declaration g fuel ⟨∅, ∅⟩ g.names

/-! ### The compilation order -/

def recursiveConstant (name : V) : TypeError :=
  errorRecursiveConstant (declaration name).name.ident (declaration name).id

def constantUsesContext (name : V) : TypeError :=
  errorConstantUsesContext (declaration name).name.ident (declaration name).id

/-- `TypeChecker::find_compilation_order`. -/
def findCompilationOrder (g : RefGraph V) (fuel : ℕ) : Option (Except TypeError (List V)) :=
  match g.names.find? fun name => isConstant declaration name && decide (name ∈ g.refs name) with
  | some name => some (.error (recursiveConstant declaration name))
  | none => do
    let components ← tarjan g fuel
    match (components.filter fun c => 1 < c.length).flatten.find? (isConstant declaration) with
    | some name => return .error (recursiveConstant declaration name)
    | none => do
      match ← contextCheck declaration g fuel with
      | some name => return .error (constantUsesContext declaration name)
      | none => return .ok components.flatten

end Roto.TypeChecker.ValueCycle
