import RotoCompiler.Value.RawList

/-!
# Lists behind a mutex (value/list.rs, ErasedList and List)

An `ErasedList` is a shared handle to a `RawList` behind a mutex that is not reentrant.
A world has all lists, each at the position that is its handle, and the mutexes that the
running thread holds. All lists here have one element type; lists of different types
never meet.
-/

namespace Roto.Value
open Lib

structure World where
  lists : List RawList
  held : List ℕ

namespace World

def lock (w : World) (h : ℕ) : Except Stop World :=
  if h ∈ w.held then .error .relock else .ok { w with held := h :: w.held }

def unlock (w : World) (h : ℕ) : World := { w with held := w.held.erase h }

/-- The list that a handle points to. -/
def raw (w : World) (h : ℕ) : Except Stop RawList :=
  match w.lists[h]? with
  | some l => .ok l
  | none => .error .panic

def setRaw (w : World) (h : ℕ) (l : RawList) : World := { w with lists := w.lists.set h l }

def empty : World := ⟨[], []⟩

end World

namespace ErasedList
variable (build : Build) (vt : VTable) (fresh : Memory) (w : World)

/-- `ErasedList::new`: the new handle and the world that has it. -/
def new : ℕ × World := (w.lists.length, { w with lists := w.lists ++ [RawList.new vt] })

def push (h : ℕ) (e : Bytes vt.size) : Except Stop World := do
  let w ← w.lock h
  let l ← w.raw h
  let l ← l.push build vt fresh e
  return (w.setRaw h l).unlock h

def concat (self other : ℕ) : Except Stop (ℕ × World) := do
  let w ← w.lock self
  let a ← w.raw self
  let (new, w) := new vt w
  let w ← w.lock new
  let raw ← (RawList.new vt).extend build vt fresh a
  -- `drop(a)`, so that `other` may be `self`
  let w := w.unlock self
  let w ← w.lock other
  let b ← w.raw other
  let raw ← raw.extend build vt fresh b
  let w := w.unlock other
  return (new, (w.setRaw new raw).unlock new)

/-- `get`, with the bytes that its caller then reads through the pointer. -/
def get (h idx : ℕ) : Except Stop (Option (Bytes vt.size) × World) := do
  let w ← w.lock h
  let l ← w.raw h
  return ((l.get vt idx).map fun off => l.mem.read vt.size off, w.unlock h)

def contains (h : ℕ) (item : Bytes vt.size) : Except Stop (Bool × World) := do
  let w ← w.lock h
  let l ← w.raw h
  let res ← l.contains vt item
  return (res, w.unlock h)

def index (h : ℕ) (item : Bytes vt.size) : Except Stop (Option ℕ × World) := do
  let w ← w.lock h
  let l ← w.raw h
  let res ← l.index vt item
  return (res, w.unlock h)

def swap (h i j : ℕ) : Except Stop World := do
  let w ← w.lock h
  let l ← w.raw h
  return (w.setRaw h (l.swap vt i j)).unlock h

def len (h : ℕ) : Except Stop (ℕ × World) := do
  let w ← w.lock h
  let l ← w.raw h
  return (l.len, w.unlock h)

/-- The loop of `eq`, over the indices that are left. -/
def eqLoop (this other : RawList) : List ℕ → Except Stop Bool
  | [] => .ok true
  | i :: is =>
    match this.get vt i, other.get vt i with
    | some elem1, some elem2 =>
      if vt.eqFn (this.mem.read vt.size elem1) (other.mem.read vt.size elem2) then
        eqLoop this other is
      else .ok false
    | _, _ => .error .panic

/-- `impl PartialEq for ErasedList`. -/
def eq (self other : ℕ) : Except Stop (Bool × World) := do
  if self = other then return (true, w)
  let w ← w.lock self
  let w ← w.lock other
  let this ← w.raw self
  let that ← w.raw other
  let res ← (if this.len ≠ that.len then .ok false
    else eqLoop vt this that (List.range this.len))
  return (res, (w.unlock other).unlock self)

end ErasedList

namespace TypedList
variable (vt : VTable) (w : World)

/-- `==` on the slices of two lists, whose elements `extern_eq` compares. -/
def sliceEq (this that : RawList) : Bool :=
  this.len = that.len &&
    (List.range this.len).all fun i => vt.eqFn (this.elem vt i) (that.elem vt i)

/-- `impl PartialEq for List<T>`. The second lock is on `self.inner` too. -/
def eq (self other : ℕ) : Except Stop (Bool × World) := do
  if self = other then return (true, w)
  let w ← w.lock self
  let this ← w.raw self
  let w ← w.lock self
  let other ← w.raw self
  return (sliceEq vt this other, (w.unlock self).unlock self)

end TypedList

end Roto.Value
