import RotoCompiler.Value.ListRuns
import Mathlib.Data.List.Forall2

/-!
# Equality of lists (value/list.rs)

`ErasedList` compares element by element through the v-table. `List<T>` compares slices,
but it takes both slices, and both locks, from `self`.
-/

namespace Roto.Value
open Lib

variable {vt : VTable} {α : Type} {E : Elements vt α} {w : World} {self other : ℕ}
variable {a b l : RawList}

/-- A comparison that returns, leaves all lists and locks as they are, and is true if and
only if the two sequences have equal elements at every index and the same length. -/
def Elementwise (E : Elements vt α) (w : World) (xs ys : List α)
    (r : Except Stop (Bool × World)) : Prop :=
  ∃ res, r = .ok (res, w) ∧ (res = true ↔ List.Forall₂ (fun x y => E.eq x y = true) xs ys)

theorem eqLoop_eq {is : List ℕ} (ha : ∀ i ∈ is, i < a.len) (hb : ∀ i ∈ is, i < b.len) :
    ErasedList.eqLoop vt a b is =
      .ok (is.all fun i => E.eq (E.decode (a.elem vt i)) (E.decode (b.elem vt i))) := by
  induction is with
  | nil => rfl
  | cons i is ih =>
    have hia := ha i List.mem_cons_self
    have hib := hb i List.mem_cons_self
    have hgeta : a.get vt i = some (RawList.offsetOf vt i) := by rw [RawList.get, if_neg (by omega)]
    have hgetb : b.get vt i = some (RawList.offsetOf vt i) := by rw [RawList.get, if_neg (by omega)]
    have heq : vt.eqFn (a.mem.read vt.size (RawList.offsetOf vt i))
        (b.mem.read vt.size (RawList.offsetOf vt i)) =
          E.eq (E.decode (a.elem vt i)) (E.decode (b.elem vt i)) := E.eqFn _ _
    have ih := ih (fun j hj => ha j (List.mem_cons_of_mem _ hj))
      fun j hj => hb j (List.mem_cons_of_mem _ hj)
    rw [ErasedList.eqLoop, hgeta, hgetb]
    simp only [heq, List.all_cons]
    cases E.eq (E.decode (a.elem vt i)) (E.decode (b.elem vt i)) with
    | true => simpa using ih
    | false => rfl

theorem forall₂_contents : List.Forall₂ (fun x y => E.eq x y = true) (a.contents E) (b.contents E) ↔
    a.len = b.len ∧ ∀ i < a.len, E.eq (E.decode (a.elem vt i)) (E.decode (b.elem vt i)) = true := by
  rw [List.forall₂_iff_get]
  simp only [List.get_eq_getElem, RawList.contents, List.getElem_map, List.getElem_range,
    List.length_map, List.length_range]
  exact and_congr_right fun hlen =>
    ⟨fun h i hi => h i hi (hlen ▸ hi), fun h i hi _ => h i hi⟩

theorem erased_eq (hs : self ∉ w.held) (ho : other ∉ w.held) (hne : self ≠ other)
    (ha : w.lists[self]? = some a) (hb : w.lists[other]? = some b) :
    Elementwise E w (a.contents E) (b.contents E) (ErasedList.eq vt w self other) := by
  obtain ⟨lists, held⟩ := w
  have hres : ErasedList.eq vt ⟨lists, held⟩ self other = (do
      let res ← (if a.len ≠ b.len then .ok false else ErasedList.eqLoop vt a b (List.range a.len))
      return (res, ⟨lists, held⟩)) := by
    have hne' : other ≠ self := fun h => hne h.symm
    simp_all [ErasedList.eq, World.lock, World.unlock, World.raw, bind, Except.bind, pure,
      Except.pure]
  by_cases hlen : a.len = b.len
  · rw [hres, if_neg (by omega), eqLoop_eq (E := E) (by simp) (by simp [hlen])]
    refine ⟨_, rfl, ?_⟩
    rw [forall₂_contents]
    simp [hlen]
  · rw [hres, if_pos hlen]
    refine ⟨false, rfl, ?_⟩
    rw [forall₂_contents]
    simp [hlen]

/-- A handle is equal to itself without any lock, and so are its elements to themselves. -/
theorem elementwise_self (hrefl : ∀ x, E.eq x x = true) :
    Elementwise E w (a.contents E) (a.contents E) (.ok (true, w)) :=
  ⟨true, rfl, fun _ => List.forall₂_same.mpr fun x _ => hrefl x, fun _ => rfl⟩

/-- Both slices of two different lists are taken from `self`. -/
theorem typed_eq (hs : self ∉ w.held) (hne : self ≠ other) (ha : w.lists[self]? = some a) :
    TypedList.eq vt w self other = .error .relock := by
  simp [TypedList.eq, World.lock, World.raw, hs, hne, ha, bind, Except.bind]

/-- The two comparisons are both right if and only if they get the same list twice. -/
theorem list_eq_elementwise_iff (E : Elements vt α) (hrefl : ∀ x, E.eq x x = true)
    (hs : self ∉ w.held) (ho : other ∉ w.held)
    (ha : w.lists[self]? = some a) (hb : w.lists[other]? = some b) :
    Elementwise E w (a.contents E) (b.contents E) (TypedList.eq vt w self other) ∧
      Elementwise E w (a.contents E) (b.contents E) (ErasedList.eq vt w self other) ↔
    self = other := by
  constructor
  · rintro ⟨⟨res, htyped, -⟩, -⟩
    by_contra hne
    rw [typed_eq hs hne ha] at htyped
    cases htyped
  · rintro rfl
    obtain rfl : a = b := Option.some.inj (ha.symm.trans hb)
    have htyped : TypedList.eq vt w self self = .ok (true, w) := by rw [TypedList.eq, if_pos rfl]; rfl
    have herased : ErasedList.eq vt w self self = .ok (true, w) := by
      rw [ErasedList.eq, if_pos rfl]; rfl
    rw [htyped, herased]
    exact ⟨elementwise_self hrefl, elementwise_self hrefl⟩

def byteVTable : VTable where
  size := 1
  align := 1
  cloneFn := none
  eqFn a b := a 0 == b 0
  align_pos := Nat.one_pos
  size_le := by decide

def bytes : Elements byteVTable UInt8 where
  decode (b : Bytes 1) := b 0
  eq a b := a == b
  clone _ hf := by cases hf
  eqFn _ _ := rfl

/-- Two lists without elements. -/
def twoLists : World := ⟨[RawList.new byteVTable, RawList.new byteVTable], []⟩

theorem twoLists_eq_elementwise_iff :
    Elementwise bytes twoLists [] [] (TypedList.eq byteVTable twoLists 0 1) ∧
      Elementwise bytes twoLists [] [] (ErasedList.eq byteVTable twoLists 0 1) ↔ 0 = 1 :=
  list_eq_elementwise_iff (a := RawList.new byteVTable) (b := RawList.new byteVTable) bytes
    (fun (x : UInt8) => beq_self_eq_true x) List.not_mem_nil List.not_mem_nil rfl rfl

theorem twoLists_locked_twice :
    ¬ Elementwise bytes twoLists [] [] (TypedList.eq byteVTable twoLists 0 1) := by
  rintro ⟨res, hres, -⟩
  rw [typed_eq (a := RawList.new byteVTable) List.not_mem_nil (by decide) rfl] at hres
  cases hres

end Roto.Value
