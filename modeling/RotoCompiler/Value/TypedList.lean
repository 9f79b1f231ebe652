import RotoCompiler.Value.Boundary
import RotoCompiler.Value.ListEq

/-!
# Typed lists (value/mod.rs and value/list.rs, boundary)

`List<T>` keeps its elements as `T::Transformed`. A value is transformed when it is pushed and
back when it is read, but `contains` and `index` hand the address of a `T` to a comparison of
`T::Transformed`. A comparison that gets to two different lists does not return.
-/

namespace Roto.Value
open Lib

inductive RotoOption (α : Type) where
  | some (a : α)
  | none
  deriving DecidableEq

inductive RotoResult (α ε : Type) where
  | ok (a : α)
  | err (e : ε)

inductive Verdict (α ρ : Type) where
  | accept (a : α)
  | reject (r : ρ)

/-- The values of the types that are passed to a script as they are, with their `PartialEq`,
which may stop, and the lists that values have in them. No list is locked, and `lists` may be
those of any moment: no comparison reads one. -/
structure Plain where
  carrier : RustTy → Type
  eq : ∀ t, carrier t → carrier t → Except Stop Bool
  lists : World
  unlocked : lists.held = []
  vtable : RustTy → VTable

/-- The handles to a list. -/
def Plain.Handle (P : Plain) : Type := Fin P.lists.lists.length

instance (P : Plain) : DecidableEq P.Handle := inferInstanceAs (DecidableEq (Fin _))

/-- Whether a comparison returns `true`. -/
def isTrue : Except Stop Bool → Bool
  | .ok b => b
  | .error _ => false

namespace RustTy
variable (P : Plain)

/-- The values of a type with an instance of `Value`. -/
def Values : RustTy → Type
  | option t => Option (Values t)
  | result t e => Except (Values e) (Values t)
  | verdict a r => Verdict (Values a) (Values r)
  | unit => P.carrier unit
  | primitive p => P.carrier (primitive p)
  | leaf id => P.carrier (leaf id)
  | val id => P.carrier (val id)
  | dynVal => P.carrier dynVal
  | vtable => P.carrier vtable
  | erasedList => P.carrier erasedList
  | list _ => P.Handle

/-- The values of `Value::Transformed`. -/
def Transformed : RustTy → Type
  | option t => RotoOption (Transformed t)
  | result t e => RotoResult (Transformed t) (Transformed e)
  | verdict a r => Verdict (Transformed a) (Transformed r)
  | unit => P.carrier unit
  | primitive p => P.carrier (primitive p)
  | leaf id => P.carrier (leaf id)
  | val id => P.carrier (val id)
  | dynVal => P.carrier dynVal
  | vtable => P.carrier vtable
  | erasedList => P.carrier erasedList
  | list _ => P.Handle

variable {P}

def transform : (t : RustTy) → t.Values P → t.Transformed P
  | option t, some x => RotoOption.some (transform t x)
  | option _, none => RotoOption.none
  | result t _, .ok x => RotoResult.ok (transform t x)
  | result _ e, .error x => RotoResult.err (transform e x)
  | verdict a _, .accept x => Verdict.accept (transform a x)
  | verdict _ r, .reject x => Verdict.reject (transform r x)
  | unit, x => x
  | primitive _, x => x
  | leaf _, x => x
  | val _, x => x
  | dynVal, x => x
  | vtable, x => x
  | erasedList, x => x
  | list _, x => x

def untransform : (t : RustTy) → t.Transformed P → t.Values P
  | option t, .some x => some (untransform t x)
  | option _, .none => none
  | result t _, .ok x => Except.ok (untransform t x)
  | result _ e, .err x => Except.error (untransform e x)
  | verdict a _, .accept x => Verdict.accept (untransform a x)
  | verdict _ r, .reject x => Verdict.reject (untransform r x)
  | unit, x => x
  | primitive _, x => x
  | leaf _, x => x
  | val _, x => x
  | dynVal, x => x
  | vtable, x => x
  | erasedList, x => x
  | list _, x => x

/-- `PartialEq` of a type. -/
def eq : (t : RustTy) → t.Values P → t.Values P → Except Stop Bool
  | option t, some x, some y => eq t x y
  | option _, none, none => .ok true
  | option _, some _, none => .ok false
  | option _, none, some _ => .ok false
  | result t _, .ok x, .ok y => eq t x y
  | result _ e, .error x, .error y => eq e x y
  | result _ _, .ok _, .error _ => .ok false
  | result _ _, .error _, .ok _ => .ok false
  | verdict a _, .accept x, .accept y => eq a x y
  | verdict _ r, .reject x, .reject y => eq r x y
  | verdict _ _, .accept _, .reject _ => .ok false
  | verdict _ _, .reject _, .accept _ => .ok false
  | unit, x, y => P.eq unit x y
  | primitive p, x, y => P.eq (primitive p) x y
  | leaf id, x, y => P.eq (leaf id) x y
  | val id, x, y => P.eq (val id) x y
  | dynVal, x, y => P.eq dynVal x y
  | vtable, x, y => P.eq vtable x y
  | erasedList, x, y => P.eq erasedList x y
  | list t, x, y => Prod.fst <$> TypedList.eq (P.vtable t) P.lists x.1 y.1

/-- `PartialEq` of its `Value::Transformed`. -/
def transformedEq : (t : RustTy) → t.Transformed P → t.Transformed P → Except Stop Bool
  | option t, .some x, .some y => transformedEq t x y
  | option _, .none, .none => .ok true
  | option _, .some _, .none => .ok false
  | option _, .none, .some _ => .ok false
  | result t _, .ok x, .ok y => transformedEq t x y
  | result _ e, .err x, .err y => transformedEq e x y
  | result _ _, .ok _, .err _ => .ok false
  | result _ _, .err _, .ok _ => .ok false
  | verdict a _, .accept x, .accept y => transformedEq a x y
  | verdict _ r, .reject x, .reject y => transformedEq r x y
  | verdict _ _, .accept _, .reject _ => .ok false
  | verdict _ _, .reject _, .accept _ => .ok false
  | unit, x, y => P.eq unit x y
  | primitive p, x, y => P.eq (primitive p) x y
  | leaf id, x, y => P.eq (leaf id) x y
  | val id, x, y => P.eq (val id) x y
  | dynVal, x, y => P.eq dynVal x y
  | vtable, x, y => P.eq vtable x y
  | erasedList, x, y => P.eq erasedList x y
  | list t, x, y => Prod.fst <$> TypedList.eq (P.vtable t) P.lists x.1 y.1

/-- `T::Transformed` is `T`. -/
def Unchanged : RustTy → Bool
  | option _ => false
  | result _ _ => false
  | verdict a r => Unchanged a && Unchanged r
  | _ => true

/-- No list is compared when values of `T` are. -/
def ListFree : RustTy → Bool
  | option t => ListFree t
  | result t e => ListFree t && ListFree e
  | verdict a r => ListFree a && ListFree r
  | list _ => false
  | _ => true

/-- Whether `==` finds two values equal. -/
def equal (t : RustTy) (x y : t.Values P) : Bool := isTrue (eq t x y)

theorem untransform_transform (t : RustTy) (x : t.Values P) :
    untransform t (transform t x) = x := by
  induction t with
  | option t ih =>
    cases x with
    | none => rfl
    | some x => exact congrArg some (ih x)
  | result t e iht ihe =>
    cases x with
    | ok x => exact congrArg Except.ok (iht x)
    | error x => exact congrArg Except.error (ihe x)
  | verdict a r iha ihr =>
    cases x with
    | accept x => exact congrArg Verdict.accept (iha x)
    | reject x => exact congrArg Verdict.reject (ihr x)
  | _ => rfl

theorem transformedEq_transform (t : RustTy) (x y : t.Values P) :
    transformedEq t (transform t x) (transform t y) = eq t x y := by
  induction t with
  | option t ih =>
    cases x <;> cases y
    · rfl
    · rfl
    · rfl
    · exact ih _ _
  | result t e iht ihe =>
    cases x <;> cases y
    · exact ihe _ _
    · rfl
    · rfl
    · exact iht _ _
  | verdict a r iha ihr =>
    cases x <;> cases y
    · exact iha _ _
    · rfl
    · rfl
    · exact ihr _ _
  | _ => rfl

/-- Two handles to one list are equal, and the comparison of two different lists locks the
first of them twice. -/
theorem eq_list (t : RustTy) (x y : P.Handle) :
    (eq (list t) x y : Except Stop Bool) = if x = y then .ok true else .error .relock := by
  by_cases hxy : x = y
  · subst hxy
    rw [if_pos rfl]
    show Prod.fst <$> TypedList.eq (P.vtable t) P.lists x.1 x.1 = _
    rw [TypedList.eq, if_pos rfl]
    rfl
  · have hne : x.1 ≠ y.1 := fun h => hxy (Fin.ext h)
    have hheld : x.1 ∉ P.lists.held := by rw [P.unlocked]; exact List.not_mem_nil
    have hl : P.lists.lists[x.1]? = some P.lists.lists[x.1] := List.getElem?_eq_getElem x.2
    rw [if_neg hxy]
    show Prod.fst <$> TypedList.eq (P.vtable t) P.lists x.1 y.1 = _
    rw [typed_eq hheld hne hl]
    rfl

/-- A comparison that gets to no list returns if the comparisons of the plain values do. -/
theorem eq_returns (hP : ∀ t x y, ∃ r, P.eq t x y = .ok r) (t : RustTy)
    (ht : t.ListFree = true) (x y : t.Values P) : ∃ r, eq t x y = .ok r := by
  induction t with
  | option t ih =>
    cases x <;> cases y
    · exact ⟨_, rfl⟩
    · exact ⟨_, rfl⟩
    · exact ⟨_, rfl⟩
    · exact ih ht _ _
  | result t e iht ihe =>
    obtain ⟨ht, he⟩ := Bool.and_eq_true_iff.mp ht
    cases x <;> cases y
    · exact ihe he _ _
    · exact ⟨_, rfl⟩
    · exact ⟨_, rfl⟩
    · exact iht ht _ _
  | verdict a r iha ihr =>
    obtain ⟨ha, hr⟩ := Bool.and_eq_true_iff.mp ht
    cases x <;> cases y
    · exact iha ha _ _
    · exact ⟨_, rfl⟩
    · exact ⟨_, rfl⟩
    · exact ihr hr _ _
  | list t ih => cases ht
  | unit => exact hP .unit x y
  | primitive p => exact hP (.primitive p) x y
  | leaf id => exact hP (.leaf id) x y
  | val id => exact hP (.val id) x y
  | dynVal => exact hP .dynVal x y
  | vtable => exact hP .vtable x y
  | erasedList => exact hP .erasedList x y

end RustTy

open RustTy

/-- How the values of `T::Transformed` and of `T` lie in memory. The layout of a Rust type is
a multiple of its alignment, and the same type has one representation. -/
structure Stored (P : Plain) (t : RustTy) where
  vt : VTable
  align_dvd : vt.align ∣ vt.size
  elements : Elements vt (t.Transformed P)
  eq_eq : ∀ x y, elements.eq x y = isTrue (transformedEq t x y)
  encode : t.Transformed P → Bytes vt.size
  decode_encode : ∀ x, elements.decode (encode x) = x
  /-- The bytes that may be found at the address of a `T`, as many as a `T::Transformed` has. -/
  At : t.Values P → Bytes vt.size → Prop
  at_unchanged : t.Unchanged = true → ∀ x b, At x b → elements.decode b = transform t x

variable {P : Plain} {t : RustTy}

namespace TypedList
variable (build : Build) (S : Stored P t) (fresh : Memory) (w : World)

def new : ℕ × World := ErasedList.new S.vt w

def push (h : ℕ) (elem : t.Values P) : Except Stop World :=
  ErasedList.push build S.vt fresh w h (S.encode (transform t elem))

def get (h idx : ℕ) : Except Stop (Option (t.Values P) × World) := do
  let (ptr, w) ← ErasedList.get S.vt w h idx
  return (ptr.map fun bs => untransform t (S.elements.decode bs), w)

/-- The loop of `RawList::contains` and `index`, over the indices that are left. `eq_fn` is
`extern_eq`, which reads a `T::Transformed` at both addresses. -/
def search (l : RawList) (item : Bytes S.vt.size) : List ℕ → Except Stop (Option ℕ)
  | [] => .ok none
  | i :: is =>
    match l.get S.vt i with
    | none => .error .panic
    | some off => do
      let isEq ← transformedEq t (S.elements.decode (l.mem.read S.vt.size off))
        (S.elements.decode item)
      if isEq then return some i else search l item is

/-- `contains`, with the bytes at the address of its argument. -/
def contains (h : ℕ) (item : Bytes S.vt.size) : Except Stop (Bool × World) := do
  let w ← w.lock h
  let l ← w.raw h
  let found ← search S l item (List.range l.len)
  return (found.isSome, w.unlock h)

def index (h : ℕ) (item : Bytes S.vt.size) : Except Stop (Option ℕ × World) := do
  let w ← w.lock h
  let l ← w.raw h
  let found ← search S l item (List.range l.len)
  return (found, w.unlock h)

def concat (self other : ℕ) : Except Stop (ℕ × World) :=
  ErasedList.concat build S.vt fresh w self other

def toVec (h : ℕ) : Except Stop (List (t.Values P) × World) := do
  let w ← w.lock h
  let guard ← w.raw h
  return ((List.range guard.len).map fun i => untransform t (S.elements.decode (guard.elem S.vt i)),
    w.unlock h)

/-- `from_iter`. -/
def fromIter (iter : List (t.Values P)) : Except Stop (ℕ × World) := do
  let (this, w) := new S w
  let w ← iter.foldlM (fun w elem => push build S fresh w this elem) w
  return (this, w)

/-- `IntoIter`. -/
structure Iter where
  inner : ℕ
  idx : ℕ

def Iter.next (it : Iter) : Except Stop (Option (t.Values P × Iter) × World) := do
  let (item, w) ← get S w it.inner it.idx
  return (item.map fun item => (item, { it with idx := it.idx + 1 }), w)

/-- The values that an iterator yields until it ends. -/
inductive Yields (S : Stored P t) : World → Iter → List (t.Values P) → Prop
  | done {w w' : World} {it : Iter} (h : it.next S w = .ok (none, w')) : Yields S w it []
  | item {w w' : World} {it it' : Iter} {x : t.Values P} {xs : List (t.Values P)}
      (h : it.next S w = .ok (some (x, it'), w')) (hs : Yields S w' it' xs) :
      Yields S w it (x :: xs)

end TypedList

/-- The worlds that `new`, `push`, `from_iter` and `concat` make, each with the sequences of
values that it stands for. No list of values without bytes is longer than `usize` can count. -/
inductive Built (build : Build) (S : Stored P t) : World → List (List (t.Values P)) → Prop
  | empty : Built build S World.empty []
  | new {w : World} {xss : List (List (t.Values P))} (hw : Built build S w xss) :
      Built build S (TypedList.new S w).2 (xss ++ [[]])
  | push {w w' : World} {xss : List (List (t.Values P))} {fresh : Memory} {h : ℕ}
      {xs : List (t.Values P)} {x : t.Values P} (hw : Built build S w xss)
      (hxs : xss[h]? = some xs) (hlen : S.vt.size = 0 → xs.length + 1 < usizeBound)
      (hp : TypedList.push build S fresh w h x = .ok w') :
      Built build S w' (xss.set h (xs ++ [x]))
  | fromIter {w w' : World} {xss : List (List (t.Values P))} {fresh : Memory} {h : ℕ}
      {xs : List (t.Values P)} (hw : Built build S w xss)
      (hlen : S.vt.size = 0 → xs.length < usizeBound)
      (hp : TypedList.fromIter build S fresh w xs = .ok (h, w')) : Built build S w' (xss ++ [xs])
  | concat {w w' : World} {xss : List (List (t.Values P))} {fresh : Memory} {self other h : ℕ}
      {xs ys : List (t.Values P)} (hw : Built build S w xss) (hxs : xss[self]? = some xs)
      (hys : xss[other]? = some ys) (hlen : S.vt.size = 0 → xs.length + ys.length < usizeBound)
      (hc : TypedList.concat build S fresh w self other = .ok (h, w')) :
      Built build S w' (xss ++ [xs ++ ys])

/-- The operations that read a list agree with the sequence of its values. -/
structure TypedList.Agrees (S : Stored P t) (w : World) (h : ℕ) (xs : List (t.Values P)) : Prop where
  get : ∀ idx, TypedList.get S w h idx = .ok (xs[idx]?, w)
  toVec : TypedList.toVec S w h = .ok (xs, w)
  iter : TypedList.Yields S w ⟨h, 0⟩ xs
  contains : ∀ x b, S.At x b →
    TypedList.contains S w h b = .ok (xs.any fun y => equal t y x, w)
  index : ∀ x b, S.At x b →
    TypedList.index S w h b = .ok (xs.findIdx? fun y => equal t y x, w)

/-- The bytes of a `T`, read as a `T::Transformed`, can be compared with whatever a `T` is
transformed to, and are found equal to what the value itself is equal to. -/
def ReadsAsTransformed (S : Stored P t) : Prop :=
  ∀ x b, S.At x b → ∀ y,
    transformedEq t (transform t y) (S.elements.decode b) = .ok (equal t y x)

/-! ### The lists that are built -/

section
variable {build : Build} {S : Stored P t} {fresh : Memory} {w w' : World}
  {xss : List (List (t.Values P))} {xs : List (t.Values P)} {h : ℕ}

/-- The world holds the transformed sequences. -/
structure Holds (S : Stored P t) (w : World) (xss : List (List (t.Values P))) : Prop where
  ok : World.Ok S.vt w
  contents : w.contents S.elements = xss.map (List.map (transform t))

theorem Holds.get (hw : Holds S w xss) (hxs : xss[h]? = some xs) :
    ∃ l, w.lists[h]? = some l ∧ l.contents S.elements = xs.map (transform t) := by
  have hat := congrArg (·[h]?) hw.contents
  simp only [World.getElem?_contents, List.getElem?_map, hxs, Option.map_some] at hat
  cases hl : w.lists[h]? with
  | none =>
    rw [hl] at hat
    cases hat
  | some l =>
    rw [hl] at hat
    exact ⟨l, rfl, Option.some.inj hat⟩

theorem length_of_contents {l : RawList}
    (hl : l.contents S.elements = xs.map (transform t)) : l.len = xs.length := by
  have hlens := congrArg List.length hl
  rw [RawList.length_contents, List.length_map] at hlens
  exact hlens

theorem holds_new (hw : Holds S w xss) : Holds S (TypedList.new S w).2 (xss ++ [[]]) := by
  refine ⟨hw.ok.append RawList.ok_new, ?_⟩
  show World.contents S.elements { w with lists := w.lists ++ [RawList.new S.vt] } = _
  rw [World.contents_append, hw.contents, List.map_append]
  rfl

theorem holds_push (hw : Holds S w xss) (hxs : xss[h]? = some xs)
    (hlen : S.vt.size = 0 → xs.length + 1 < usizeBound) {x : t.Values P}
    (hp : TypedList.push build S fresh w h x = .ok w') :
    Holds S w' (xss.set h (xs ++ [x])) := by
  obtain ⟨l, hl, hcon⟩ := hw.get hxs
  unfold TypedList.push at hp
  rw [push_eq hw.ok.held hl] at hp
  obtain ⟨l', hl', hret⟩ := RawList.bind_ok.mp hp
  obtain rfl := Except.ok.inj hret
  have hlen' : S.vt.size = 0 → l.len + 1 < usizeBound := by
    rw [length_of_contents hcon]
    exact hlen
  obtain ⟨hok, hcon'⟩ := RawList.push_ok S.elements (hw.ok.get hl) hl' hlen'
  refine ⟨hw.ok.set hok h, ?_⟩
  rw [World.contents_set, hcon', hcon, S.decode_encode, hw.contents, List.map_set, List.map_append]
  rfl

theorem holds_pushes (ys : List (t.Values P)) : ∀ {w : World} {xss : List (List (t.Values P))}
    {xs : List (t.Values P)}, Holds S w xss → xss[h]? = some xs →
    (S.vt.size = 0 → xs.length + ys.length < usizeBound) →
    ys.foldlM (fun w elem => TypedList.push build S fresh w h elem) w = .ok w' →
    Holds S w' (xss.set h (xs ++ ys)) := by
  induction ys with
  | nil =>
    intro w xss xs hw hxs hlen hp
    obtain rfl := Except.ok.inj hp
    have hset : xss.set h (xs ++ []) = xss := by
      obtain ⟨hlt, rfl⟩ := List.getElem?_eq_some_iff.mp hxs
      rw [List.append_nil]
      exact List.set_getElem_self hlt
    rw [hset]
    exact hw
  | cons y ys ih =>
    intro w xss xs hw hxs hlen hp
    rw [List.foldlM_cons] at hp
    obtain ⟨w₁, hp₁, hp⟩ := RawList.bind_ok.mp hp
    have hlt : h < xss.length := (List.getElem?_eq_some_iff.mp hxs).1
    have hw₁ := holds_push hw hxs (fun hs => by
      have hle := hlen hs
      rw [List.length_cons] at hle
      omega) hp₁
    have hxs₁ : (xss.set h (xs ++ [y]))[h]? = some (xs ++ [y]) := by
      rw [List.getElem?_set_self hlt]
    have hrest := ih hw₁ hxs₁ (fun hs => by
      have hle := hlen hs
      rw [List.length_cons] at hle
      rw [List.length_append, List.length_singleton]
      omega) hp
    rw [List.set_set, List.append_assoc] at hrest
    exact hrest

theorem holds_concat (hw : Holds S w xss) {self other : ℕ} {ys : List (t.Values P)}
    (hxs : xss[self]? = some xs) (hys : xss[other]? = some ys)
    (hlen : S.vt.size = 0 → xs.length + ys.length < usizeBound)
    (hc : TypedList.concat build S fresh w self other = .ok (h, w')) :
    Holds S w' (xss ++ [xs ++ ys]) := by
  obtain ⟨a, ha, hacon⟩ := hw.get hxs
  obtain ⟨b, hb, hbcon⟩ := hw.get hys
  have hspec := @concat_spec build S.vt _ S.elements fresh w hw.ok self other a b ha hb
  unfold TypedList.concat at hc
  simp only [step, hc, bind, Except.bind, pure, Except.pure] at hspec
  rw [length_of_contents hacon, length_of_contents hbcon] at hspec
  obtain ⟨hok, hiff⟩ := hspec
  refine ⟨hok, ?_⟩
  rw [(hiff.mpr hlen).2, hw.contents, hacon, hbcon, List.map_append, ← List.map_append]
  rfl

theorem built_holds (hb : Built build S w xss) : Holds S w xss := by
  induction hb with
  | empty => exact ⟨World.ok_empty, rfl⟩
  | new _ ih => exact holds_new ih
  | push _ hxs hlen hp ih => exact holds_push ih hxs hlen hp
  | @fromIter w w' xss fresh h xs _ hlen hp ih =>
    unfold TypedList.fromIter at hp
    obtain ⟨w₁, hpushes, hret⟩ := RawList.bind_ok.mp hp
    obtain ⟨rfl, rfl⟩ := Prod.mk.inj (Except.ok.inj hret)
    have hlen₁ : w.lists.length = xss.length := by
      have hlens := congrArg List.length ih.contents
      simpa [World.contents] using hlens
    have hxs : (xss ++ [([] : List (t.Values P))])[(TypedList.new S w).1]? = some [] := by
      show (xss ++ [[]])[w.lists.length]? = _
      rw [hlen₁, List.getElem?_append_right le_rfl, Nat.sub_self]
      rfl
    have hall := holds_pushes xs (holds_new ih) hxs (by simpa using hlen) hpushes
    have hset : (xss ++ [([] : List (t.Values P))]).set (TypedList.new S w).1 ([] ++ xs) =
        xss ++ [xs] := by
      show (xss ++ [[]]).set w.lists.length ([] ++ xs) = _
      rw [hlen₁, List.set_append_right _ _ le_rfl, Nat.sub_self]
      rfl
    rw [hset] at hall
    exact hall
  | concat _ hxs hys hlen hc ih => exact holds_concat ih hxs hys hlen hc

/-! ### Reading -/

theorem typed_get_eq (hw : Holds S w xss) (hxs : xss[h]? = some xs) (idx : ℕ) :
    TypedList.get S w h idx = .ok (xs[idx]?, w) := by
  obtain ⟨l, hl, hcon⟩ := hw.get hxs
  have hread := @RawList.get_eq S.vt l _ S.elements idx
  rw [hcon, List.getElem?_map] at hread
  unfold TypedList.get
  rw [get_eq hw.ok.held hl]
  show Except.ok (Option.map _ (Option.map _ _), w) = _
  rw [Option.map_map]
  have hmap := congrArg (Option.map (untransform t)) hread
  rw [Option.map_map, Option.map_map] at hmap
  have hid : untransform t ∘ transform t = id := funext (untransform_transform (P := P) t)
  rw [hid, Option.map_id] at hmap
  exact congrArg (fun o => Except.ok (o, w)) hmap

theorem typed_toVec_eq (hw : Holds S w xss) (hxs : xss[h]? = some xs) :
    TypedList.toVec S w h = .ok (xs, w) := by
  obtain ⟨l, hl, hcon⟩ := hw.get hxs
  have hvals : (List.range l.len).map
      (fun i => untransform t (S.elements.decode (l.elem S.vt i))) = xs := by
    have hmap := congrArg (List.map (untransform t)) hcon
    rw [List.map_map] at hmap
    have hid : untransform t ∘ transform t = id := funext (untransform_transform (P := P) t)
    rw [hid, List.map_id] at hmap
    rw [← hmap, RawList.contents, List.map_map]
    rfl
  obtain ⟨lists, held⟩ := w
  obtain rfl : held = [] := hw.ok.held
  have hraw : World.raw ⟨lists, [h]⟩ h = .ok l := by
    unfold World.raw
    rw [hl]
  unfold TypedList.toVec
  rw [World.lock, if_neg List.not_mem_nil]
  show (do
    let guard ← World.raw ⟨lists, [h]⟩ h
    return ((List.range guard.len).map fun i =>
      untransform t (S.elements.decode (guard.elem S.vt i)), World.unlock ⟨lists, [h]⟩ h)) = _
  rw [hraw]
  show Except.ok (_, World.unlock ⟨lists, [h]⟩ h) = _
  rw [hvals, World.unlock]
  simp

/-- An iterator yields what is left of the list. -/
theorem yields_drop (hw : Holds S w xss) (hxs : xss[h]? = some xs) (ys : List (t.Values P)) :
    ∀ idx, xs.drop idx = ys → TypedList.Yields S w ⟨h, idx⟩ ys := by
  induction ys with
  | nil =>
    intro idx hdrop
    have hnone : xs[idx]? = none := List.getElem?_eq_none (List.drop_eq_nil_iff.mp hdrop)
    have hnext : TypedList.Iter.next S w ⟨h, idx⟩ = .ok (none, w) := by
      unfold TypedList.Iter.next
      rw [typed_get_eq hw hxs, hnone]
      rfl
    exact .done hnext
  | cons y ys ih =>
    intro idx hdrop
    have hsome : xs[idx]? = some y := by
      have hat := congrArg (·[0]?) hdrop
      simpa using hat
    have hrest : xs.drop (idx + 1) = ys := by
      rw [← List.drop_drop, hdrop]
      rfl
    have hnext : TypedList.Iter.next S w ⟨h, idx⟩ = .ok (some (y, ⟨h, idx + 1⟩), w) := by
      unfold TypedList.Iter.next
      rw [typed_get_eq hw hxs, hsome]
      rfl
    exact .item hnext (ih (idx + 1) hrest)

/-- Where every comparison returns, the loop is the one of the erased list. -/
theorem search_eq_erased {l : RawList} {item : Bytes S.vt.size} {is : List ℕ}
    (his : ∀ i ∈ is, i < l.len) (hret : ∀ i ∈ is, ∃ r, transformedEq t
      (S.elements.decode (l.elem S.vt i)) (S.elements.decode item) = .ok r) :
    TypedList.search S l item is = RawList.search S.vt l item is := by
  induction is with
  | nil => rfl
  | cons i is ih =>
    have hi := his i List.mem_cons_self
    have hget : l.get S.vt i = some (RawList.offsetOf S.vt i) := by
      rw [RawList.get, if_neg (by omega)]
    obtain ⟨r, hr⟩ := hret i List.mem_cons_self
    have hfn : S.vt.eqFn (l.mem.read S.vt.size (RawList.offsetOf S.vt i)) item = r := by
      rw [S.elements.eqFn, S.eq_eq]
      exact congrArg isTrue hr
    have hrest := ih (fun j hj => his j (List.mem_cons_of_mem _ hj))
      fun j hj => hret j (List.mem_cons_of_mem _ hj)
    have hloop : TypedList.search S l item (i :: is) =
        if r = true then .ok (some i) else TypedList.search S l item is := by
      rw [TypedList.search, hget]
      show (transformedEq t (S.elements.decode (l.elem S.vt i)) (S.elements.decode item) >>=
        fun isEq => if isEq = true then pure (some i) else TypedList.search S l item is) = _
      rw [hr]
      rfl
    rw [hloop, RawList.search, hget]
    simp only [hfn, hrest]

/-- What the bytes at the address read as is compared with the elements until one is equal. -/
theorem typed_search_eq (hreads : ReadsAsTransformed S) {l : RawList}
    (hcon : l.contents S.elements = xs.map (transform t)) {x : t.Values P}
    {b : Bytes S.vt.size} (hb : S.At x b) :
    TypedList.search S l b (List.range l.len) = .ok (xs.findIdx? fun y => equal t y x) := by
  have hret : ∀ i ∈ List.range l.len, ∃ r, transformedEq t
      (S.elements.decode (l.elem S.vt i)) (S.elements.decode b) = .ok r := by
    intro i hi
    have hmem : S.elements.decode (l.elem S.vt i) ∈ l.contents S.elements :=
      List.mem_map_of_mem hi
    rw [hcon] at hmem
    obtain ⟨y, -, hy⟩ := List.mem_map.mp hmem
    rw [← hy]
    exact ⟨_, hreads x b hb y⟩
  have hfun : (fun y => S.elements.eq (transform t y) (S.elements.decode b)) =
      fun y => equal t y x := by
    funext y
    rw [S.eq_eq, hreads x b hb y]
    rfl
  have hindex := RawList.index_eq S.elements (l := l) b
  rw [hcon, List.findIdx?_map] at hindex
  rw [search_eq_erased (fun i hi => List.mem_range.mp hi) hret, ← hfun]
  exact hindex

/-- `contains` and `index` of a list that is not locked. -/
theorem typed_contains_eq (hw : Holds S w xss) {l : RawList} (hl : w.lists[h]? = some l)
    (item : Bytes S.vt.size) :
    TypedList.contains S w h item = (do
      let found ← TypedList.search S l item (List.range l.len)
      return (found.isSome, w)) := by
  obtain ⟨lists, held⟩ := w
  obtain rfl : held = [] := hw.ok.held
  cases hs : TypedList.search S l item (List.range l.len) <;>
    simp [TypedList.contains, World.lock, World.unlock, World.raw, hl, hs, bind, Except.bind,
      pure, Except.pure]

theorem typed_index_eq (hw : Holds S w xss) {l : RawList} (hl : w.lists[h]? = some l)
    (item : Bytes S.vt.size) :
    TypedList.index S w h item = (do
      let found ← TypedList.search S l item (List.range l.len)
      return (found, w)) := by
  obtain ⟨lists, held⟩ := w
  obtain rfl : held = [] := hw.ok.held
  cases hs : TypedList.search S l item (List.range l.len) <;>
    simp [TypedList.index, World.lock, World.unlock, World.raw, hl, hs, bind, Except.bind,
      pure, Except.pure]

theorem agrees_of_reads (hw : Holds S w xss) (hxs : xss[h]? = some xs)
    (hreads : ReadsAsTransformed S) : TypedList.Agrees S w h xs := by
  obtain ⟨l, hl, hcon⟩ := hw.get hxs
  refine ⟨typed_get_eq hw hxs, typed_toVec_eq hw hxs, yields_drop hw hxs xs 0 rfl,
    fun x b hb => ?_, fun x b hb => ?_⟩
  · rw [typed_contains_eq hw hl, typed_search_eq hreads hcon hb, ← List.findIdx?_isSome]
    rfl
  · rw [typed_index_eq hw hl, typed_search_eq hreads hcon hb]
    rfl

/-- In a list with one element, `contains` is one comparison. -/
theorem contains_single (hw : Holds S w [[y]]) (b : Bytes S.vt.size) :
    TypedList.contains S w 0 b = (do
      let isEq ← transformedEq t (transform t y) (S.elements.decode b)
      return (isEq, w)) := by
  have hget₀ : [[y]][0]? = some [y] := rfl
  obtain ⟨l, hl, hcon⟩ := hw.get hget₀
  have hlen : l.len = 1 := length_of_contents hcon
  have hrange : List.range l.len = [0] := by rw [hlen]; rfl
  have helem : S.elements.decode (l.elem S.vt 0) = transform t y := by
    have hmap := hcon
    rw [RawList.contents, hrange] at hmap
    exact (List.cons.inj hmap).1
  have hget : l.get S.vt 0 = some (RawList.offsetOf S.vt 0) := by
    rw [RawList.get, if_neg (by omega)]
  have hread : S.elements.decode (l.mem.read S.vt.size (RawList.offsetOf S.vt 0)) =
      transform t y := helem
  rw [typed_contains_eq hw hl, hrange, TypedList.search, hget]
  simp only [hread]
  cases transformedEq t (transform t y) (S.elements.decode b) with
  | error e => rfl
  | ok r => cases r <;> rfl

/-- One element of a Rust type has a layout. -/
theorem fits_one (S : Stored P t) : RawList.Fits S.vt 1 := by
  have hpos := S.vt.align_pos
  have hsize := S.vt.size_le
  refine ⟨by simp [usizeBound], fun hs => ?_⟩
  have hpow : nextPowerOfTwo 1 = 1 := by simp [nextPowerOfTwo]
  have hle := Nat.le_of_dvd (Nat.pos_of_ne_zero hs) S.align_dvd
  refine ⟨max 1 (if S.vt.size = 1 then 8 else if S.vt.size ≤ 1024 then 4 else 1), ?_, ?_⟩
  · simp only [RawList.computeCapacity, hpow, checked]
    rfl
  · split_ifs with h1 h2
    · rw [h1]
      simp only [isizeBound]
      omega
    · have hmax : max 1 4 = 4 := rfl
      rw [hmax]
      simp only [isizeBound]
      omega
    · simpa using hsize

theorem push_one_ok (S : Stored P t) (x : t.Values P) :
    ∃ w, TypedList.push build S fresh (TypedList.new S World.empty).2 0 x = .ok w := by
  have hl : (TypedList.new S World.empty).2.lists[0]? = some (RawList.new S.vt) := rfl
  unfold TypedList.push
  rw [push_eq rfl hl]
  cases hp : (RawList.new S.vt).push build S.vt fresh (S.encode (transform t x)) with
  | error e => exact absurd (fits_one S) (RawList.push_error RawList.ok_new hp).2
  | ok l => exact ⟨_, rfl⟩

end

/-- The lists of a type agree with sequences of its values if and only if its values read as
what they are transformed to. -/
theorem typed_lists_agree_iff (build : Build) (S : Stored P t) :
    (∀ w xss, Built build S w xss → ∀ h xs, xss[h]? = some xs → TypedList.Agrees S w h xs) ↔
      ReadsAsTransformed S := by
  constructor
  · intro hall x b hb y
    obtain ⟨w, hp⟩ := @push_one_ok P t build (fun _ => 0) S y
    have hnew : Built build S (TypedList.new S World.empty).2 [[]] := .new .empty
    have hbuilt : Built build S w [[y]] :=
      .push (h := 0) hnew rfl (fun _ => by simp [usizeBound]) hp
    have hxs : [[y]][0]? = some [y] := rfl
    have hcon := (hall w [[y]] hbuilt 0 [y] hxs).contains x b hb
    rw [contains_single (built_holds hbuilt)] at hcon
    obtain ⟨r, hr, hret⟩ := RawList.bind_ok.mp hcon
    have hany := (Prod.mk.inj (Except.ok.inj hret)).1
    rw [hr, hany, List.any_cons, List.any_nil, Bool.or_false]
  · intro hreads w xss hb h xs hxs
    exact agrees_of_reads (built_holds hb) hxs hreads

/-- A type that is not changed reads as itself, and its comparison returns if it gets to no
list. -/
theorem reads_of_unchanged (hP : ∀ t x y, ∃ r, P.eq t x y = .ok r) (S : Stored P t)
    (ht : t.Unchanged = true) (hfree : t.ListFree = true) : ReadsAsTransformed S := by
  intro x b hb y
  obtain ⟨r, hr⟩ := eq_returns hP t hfree y x
  rw [S.at_unchanged ht x b hb, transformedEq_transform, equal, hr]
  rfl

/-- Lists are found in a list of lists if there is only one. -/
theorem reads_list_iff (S : Stored P (.list t)) :
    ReadsAsTransformed S ↔ ∀ (x : P.Handle) b, S.At x b → ∀ y : P.Handle, y = x := by
  have hread : ∀ (x : P.Handle) b, S.At x b → ∀ y : P.Handle,
      transformedEq (.list t) (transform (.list t) y) (S.elements.decode b) =
        if y = x then .ok true else .error .relock := by
    intro x b hb y
    rw [S.at_unchanged rfl x b hb]
    exact (transformedEq_transform (.list t) _ _).trans (eq_list t y x)
  constructor
  · intro hreads x b hb y
    by_contra hne
    have hret := hreads x b hb y
    rw [hread x b hb y, if_neg hne] at hret
    cases hret
  · intro hone x b hb y
    have hyx := hone x b hb y
    have hself := eq_list t y x
    rw [if_pos hyx] at hself
    rw [hread x b hb y, if_pos hyx]
    exact congrArg (fun r => Except.ok (isTrue r)) hself.symm

/-! ### An option without a byte of its own -/

/-- `NonZeroU8`, registered as type 0. -/
def nonZeroU8 : Plain where
  carrier _ := { b : UInt8 // b ≠ 0 }
  eq _ a b := .ok (a.1 == b.1)
  lists := World.empty
  unlocked := rfl
  vtable _ := byteVTable

/-- The bytes of a `RotoOption`: the variant and the value. -/
def readOption (b : Bytes 2) : RotoOption { b : UInt8 // b ≠ 0 } :=
  if h : b 0 = 0 ∧ b 1 ≠ 0 then .some ⟨b 1, h.2⟩ else .none

def writeOption : RotoOption { b : UInt8 // b ≠ 0 } → Bytes 2
  | .some x => fun i => if i = 0 then 0 else x.1
  | .none => fun i => if i = 0 then 1 else 0

theorem readOption_writeOption (x : RotoOption { b : UInt8 // b ≠ 0 }) :
    readOption (writeOption x) = x := by
  unfold readOption
  cases x with
  | some x =>
    have hx : writeOption (.some x) 0 = 0 ∧ writeOption (.some x) 1 ≠ 0 := ⟨rfl, x.2⟩
    rw [dif_pos hx]
    rfl
  | none =>
    have hx : ¬ (writeOption .none 0 = 0 ∧ writeOption .none 1 ≠ 0) := fun h =>
      absurd h.1 (by decide)
    rw [dif_neg hx]

/-- `Option<Val<NonZeroU8>>`, which is one byte, and 0 for `None`. -/
def optionNonZero : Stored nonZeroU8 (.option (.val 0)) where
  vt :=
    { size := 2
      align := 1
      cloneFn := none
      eqFn := fun a b =>
        isTrue (transformedEq (P := nonZeroU8) (.option (.val 0)) (readOption a) (readOption b))
      align_pos := Nat.one_pos
      size_le := by decide }
  align_dvd := Nat.one_dvd _
  elements :=
    { decode := readOption
      eq := fun x y => isTrue (transformedEq (.option (.val 0)) x y)
      clone := fun _ hf => nomatch hf
      eqFn := fun _ _ => rfl }
  eq_eq _ _ := rfl
  encode := writeOption
  decode_encode := readOption_writeOption
  At x (b : Bytes 2) := match x with
    | some (x : { b : UInt8 // b ≠ 0 }) => b 0 = x.1
    | none => b 0 = 0
  at_unchanged h := nomatch h

/-- A `None` with a byte that is not 0 behind it. -/
def noneBytes : Bytes 2 := fun i => if i = 0 then 0 else 1

/-- `[None].contains(&None)` is false. -/
theorem optionNonZero_not_contained : ∃ w, Built release optionNonZero w [[none]] ∧
    optionNonZero.At none noneBytes ∧
    TypedList.toVec optionNonZero w 0 = .ok ([none], w) ∧
    TypedList.contains optionNonZero w 0 noneBytes = .ok (false, w) ∧
    ¬ TypedList.Agrees optionNonZero w 0 [none] := by
  obtain ⟨w, hp⟩ := @push_one_ok _ _ release (fun _ => 0) optionNonZero none
  have hnew : Built release optionNonZero (TypedList.new optionNonZero World.empty).2 [[]] :=
    .new .empty
  have hbuilt : Built release optionNonZero w [[none]] :=
    .push (h := 0) hnew rfl (fun hs => absurd hs (by decide)) hp
  have hxs : [[(none : RustTy.Values nonZeroU8 (.option (.val 0)))]][0]? = some [none] := rfl
  have hcon : TypedList.contains optionNonZero w 0 noneBytes = .ok (false, w) :=
    (contains_single (built_holds hbuilt) noneBytes).trans rfl
  have hat : optionNonZero.At none noneBytes := rfl
  refine ⟨w, hbuilt, hat, typed_toVec_eq (built_holds hbuilt) hxs, hcon, fun hagrees => ?_⟩
  have htrue := hagrees.contains none noneBytes hat
  rw [hcon] at htrue
  cases htrue

end Roto.Value
