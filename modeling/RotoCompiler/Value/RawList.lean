import RotoCompiler.Lib.Bytes
import Mathlib.Data.List.GetD

/-!
# The type-erased list (value/list.rs, RawList)

A list holds its elements as blocks of bytes behind one pointer; only the v-table of the
element type knows their size. Elements of size zero are never stored, and the list then
only counts them. `Stop` is a panic, or a thread that locks a mutex it already holds.
-/

namespace Roto.Value
open Lib

inductive Stop where
  | panic
  | relock
  deriving DecidableEq, Repr

/-- Whether `+` and `*` on `usize` panic on overflow, as in a debug build, or wrap. -/
structure Build where
  overflowChecks : Bool

/-- `a + b` or `a * b` on `usize`, given the exact result. -/
def Build.usize (build : Build) (exact : ℕ) : Except Stop ℕ :=
  if exact < usizeBound then .ok exact
  else if build.overflowChecks then .error .panic
  else .ok (exact % usizeBound)

/-- `a.checked_add(b).unwrap()` and its like. -/
def checked (exact : ℕ) : Except Stop ℕ :=
  if exact < usizeBound then .ok exact else .error .panic

/-- `VTable`, with its functions as what they make of the bytes. The bounds are those of
the layout of a Rust type. -/
structure VTable where
  size : ℕ
  align : ℕ
  cloneFn : Option (Bytes size → Bytes size)
  eqFn : Bytes size → Bytes size → Bool
  align_pos : 0 < align
  size_le : size + align ≤ isizeBound

structure RawList where
  mem : Memory
  len : ℕ
  capacity : ℕ

namespace RawList

section
variable (build : Build) (vt : VTable)

/-- `offset_of`; the product wraps in every build that does not panic. -/
def offsetOf (n : ℕ) : ℕ := vt.size * n % usizeBound

/-- `compute_capacity`. -/
def computeCapacity (size required : ℕ) : Except Stop ℕ := do
  if required = 0 then return 0
  let minimumCapacity := if size = 1 then 8 else if size ≤ 1024 then 4 else 1
  let next ← checked (nextPowerOfTwo required)
  return max next minimumCapacity

/-- `array_layout`, with the condition of `Layout::from_size_align`. -/
def arrayLayout (n : ℕ) : Except Stop ℕ := do
  let arraySize ← build.usize (vt.size * n)
  if arraySize + vt.align ≤ isizeBound then return arraySize else throw .panic

/-- The bytes of the current allocation, if there is one. -/
def allocated (l : RawList) : Except Stop ℕ :=
  if l.capacity = 0 then .ok 0 else arrayLayout build vt l.capacity

/-- `realloc_array` and `alloc_array`: the old bytes stay, `fresh` stands for what the
new ones happen to hold. -/
def grow (fresh : Memory) (l : RawList) (newCapacity : ℕ) : Except Stop RawList := do
  let oldSize ← allocated build vt l
  let _ ← arrayLayout build vt newCapacity
  return { l with
    mem := fun a => if a < oldSize then l.mem a else fresh a
    capacity := newCapacity }

def reserve (fresh : Memory) (l : RawList) (added : ℕ) : Except Stop RawList := do
  if vt.size = 0 then return l
  let newRequired ← checked (l.len + added)
  let newCapacity ← computeCapacity vt.size newRequired
  if newCapacity > l.capacity then grow build vt fresh l newCapacity else return l

/-- `RawList::new`, where `with_capacity(0, vtable)` reserves nothing. -/
def new : RawList where
  mem := fun _ => 0
  len := 0
  capacity := if vt.size = 0 then usizeBound - 1 else 0

/-- The bytes of the element at index `i`. -/
def elem (l : RawList) (i : ℕ) : Bytes vt.size := l.mem.read vt.size (offsetOf vt i)

/-- The part of `push` for elements that take space. -/
def store (fresh : Memory) (l : RawList) (e : Bytes vt.size) : Except Stop RawList := do
  let l ← reserve build vt fresh l 1
  return { l with mem := l.mem.write (offsetOf vt l.len) e }

def push (fresh : Memory) (l : RawList) (e : Bytes vt.size) : Except Stop RawList := do
  let l ← (if vt.size > 0 then store build vt fresh l e else .ok l)
  let len ← build.usize (l.len + 1)
  return { l with len := len }

/-- The loop of `extend` that calls `clone_fn`, over the indices that are left. -/
def cloneElems (f : Bytes vt.size → Bytes vt.size) (other : RawList) (len : ℕ) :
    List ℕ → Memory → Memory
  | [], m => m
  | i :: is, m =>
    cloneElems f other len is (m.write (offsetOf vt (len + i)) (f (other.elem vt i)))

/-- The two copying paths of `extend`. -/
def copyElems (l other : RawList) : Memory :=
  match vt.cloneFn with
  | some f => cloneElems vt f other l.len (List.range other.len) l.mem
  | none => l.mem.copy (offsetOf vt l.len) other.mem (offsetOf vt other.len)

def extend (fresh : Memory) (l other : RawList) : Except Stop RawList := do
  if vt.size = 0 then
    let len ← build.usize (l.len + other.len)
    return { l with len := len }
  if other.len = 0 then return l
  let l ← reserve build vt fresh l other.len
  let len ← build.usize (l.len + other.len)
  return { l with mem := copyElems vt l other, len := len }

/-- `get`, the offset of the element. -/
def get (l : RawList) (idx : ℕ) : Option ℕ :=
  if idx ≥ l.len then none else some (offsetOf vt idx)

/-- The loop of `contains` and `index`: the first index, of those that are left, with an
element that `eq_fn` finds equal to `item`. -/
def search (l : RawList) (item : Bytes vt.size) : List ℕ → Except Stop (Option ℕ)
  | [] => .ok none
  | i :: is =>
    match l.get vt i with
    | none => .error .panic
    | some off =>
      if vt.eqFn (l.mem.read vt.size off) item then .ok (some i) else search l item is

def contains (l : RawList) (item : Bytes vt.size) : Except Stop Bool := do
  let found ← search vt l item (List.range l.len)
  return found.isSome

def index (l : RawList) (item : Bytes vt.size) : Except Stop (Option ℕ) :=
  search vt l item (List.range l.len)

def swap (l : RawList) (i j : ℕ) : RawList :=
  if i ≥ l.len ∨ j ≥ l.len then l
  else if i = j then l
  else { l with mem := l.mem.swap vt.size (offsetOf vt i) (offsetOf vt j) }

end

/-! ### The invariant of the allocation -/

/-- The capacity is no or a power of two of elements, its bytes have a layout, and the
elements of the list lie inside. -/
structure Ok (vt : VTable) (l : RawList) : Prop where
  len_le : vt.size ≠ 0 → l.len ≤ l.capacity
  power : vt.size ≠ 0 → l.capacity = 0 ∨ ∃ k, l.capacity = 2 ^ k
  layout : vt.size ≠ 0 → vt.size * l.capacity + vt.align ≤ isizeBound
  len_lt : l.len < usizeBound

variable {build : Build} {vt : VTable} {fresh : Memory} {l l' other : RawList} {i j n : ℕ}

theorem ok_new : Ok vt (new vt) := by
  have hle := vt.size_le
  refine ⟨fun _ => Nat.zero_le _, fun h => Or.inl (by simp [new, h]), fun h => ?_, ?_⟩
  · simp only [new, h, if_false, Nat.mul_zero]
    omega
  · simp [new, usizeBound]

/-- A list that stores nothing only has to count. -/
theorem ok_of_size_zero (hs : vt.size = 0) (hlen : l.len < usizeBound) : Ok vt l :=
  ⟨fun h => absurd hs h, fun h => absurd hs h, fun h => absurd hs h, hlen⟩

/-- Offsets inside the allocation do not wrap. -/
theorem Ok.offsetOf_eq (h : Ok vt l) (hn : n ≤ l.capacity) : offsetOf vt n = vt.size * n := by
  unfold offsetOf
  by_cases hs : vt.size = 0
  · simp [hs]
  · have hlay := h.layout hs
    have hmul : vt.size * n ≤ vt.size * l.capacity := Nat.mul_le_mul_left _ hn
    exact Nat.mod_eq_of_lt (by simp only [usizeBound, isizeBound] at *; omega)

theorem Ok.offsetOf_le (h : Ok vt l) (hn : n ≤ l.len) : offsetOf vt n = vt.size * n := by
  by_cases hs : vt.size = 0
  · simp [offsetOf, hs]
  · exact h.offsetOf_eq (hn.trans (h.len_le hs))

theorem Ok.capacity_eq (h : Ok vt l) (hs : vt.size ≠ 0) (hlen : l.len ≠ 0) :
    ∃ k, l.capacity = 2 ^ k := by
  have hle := h.len_le hs
  rcases h.power hs with h0 | hp
  · omega
  · exact hp

/-- Blocks at different indices do not overlap. -/
theorem block_disjoint (size : ℕ) {i j : ℕ} (h : i ≠ j) :
    size * i + size ≤ size * j ∨ size * j + size ≤ size * i := by
  rcases Nat.lt_or_gt_of_ne h with h | h
  · left
    calc size * i + size = size * (i + 1) := by rw [Nat.mul_succ]
      _ ≤ size * j := Nat.mul_le_mul_left _ h
  · right
    calc size * j + size = size * (j + 1) := by rw [Nat.mul_succ]
      _ ≤ size * i := Nat.mul_le_mul_left _ h

theorem usize_eq {exact r : ℕ} (h : build.usize exact = .ok r) (hb : exact < usizeBound) :
    r = exact := by
  rw [Build.usize, if_pos hb] at h
  exact (Except.ok.inj h).symm

theorem usize_lt {exact r : ℕ} (h : build.usize exact = .ok r) : r < usizeBound := by
  unfold Build.usize at h
  split at h
  · next hb => exact Except.ok.inj h ▸ hb
  · split at h
    · cases h
    · exact Except.ok.inj h ▸ Nat.mod_lt _ (by simp [usizeBound])

/-! ### Growing -/

theorem bind_ok {α β : Type} {x : Except Stop α} {f : α → Except Stop β} {b : β} :
    (x >>= f) = .ok b ↔ ∃ a, x = .ok a ∧ f a = .ok b := by
  cases x <;> simp [bind, Except.bind]

theorem checked_ok {exact r : ℕ} (h : checked exact = .ok r) : r = exact := by
  unfold checked at h
  split at h
  · exact (Except.ok.inj h).symm
  · cases h

/-- The capacity for `required` elements: a power of two, and no more than it takes, but
for the least capacity of small elements. -/
theorem computeCapacity_ok {size required c : ℕ} (hr : required ≠ 0)
    (h : computeCapacity size required = .ok c) :
    required ≤ c ∧ (∃ k, c = 2 ^ k) ∧ ∀ k, required ≤ 2 ^ k →
      c ≤ 2 ^ k ∨ size = 1 ∧ c ≤ 8 ∨ size ≤ 1024 ∧ c ≤ 4 ∨ c ≤ 1 := by
  simp only [computeCapacity, hr, if_false] at h
  obtain ⟨next, hnext, h⟩ := bind_ok.mp h
  obtain rfl := checked_ok hnext
  obtain rfl := Except.ok.inj h
  have hle := le_nextPowerOfTwo required
  have hmax : ∀ a b : ℕ, max (2 ^ a) (2 ^ b) = 2 ^ max a b := by
    intro a b
    rcases le_total a b with hab | hab
    · rw [max_eq_right hab, max_eq_right (Nat.pow_le_pow_right (by omega) hab)]
    · rw [max_eq_left hab, max_eq_left (Nat.pow_le_pow_right (by omega) hab)]
  refine ⟨hle.trans (le_max_left _ _), ?_, fun k hk => ?_⟩
  · obtain ⟨m, hm⟩ : ∃ m, (if size = 1 then 8 else if size ≤ 1024 then 4 else 1) = 2 ^ m := by
      split_ifs
      · exact ⟨3, rfl⟩
      · exact ⟨2, rfl⟩
      · exact ⟨0, rfl⟩
    rw [hm, nextPowerOfTwo, hmax]
    exact ⟨_, rfl⟩
  · have hnp := nextPowerOfTwo_le hk
    rcases le_total (nextPowerOfTwo required)
      (if size = 1 then 8 else if size ≤ 1024 then 4 else 1) with hm | hm
    · rw [max_eq_right hm]
      split_ifs with h1 h2
      · exact Or.inr (Or.inl ⟨h1, le_rfl⟩)
      · exact Or.inr (Or.inr (Or.inl ⟨h2, le_rfl⟩))
      · exact Or.inr (Or.inr (Or.inr le_rfl))
    · rw [max_eq_left hm]
      exact Or.inl hnp

/-- The bytes of a new capacity do not wrap: it is at most twice that of the lists that
the elements come from. -/
theorem size_mul_newCapacity_lt (h : Ok vt l) (hs : vt.size ≠ 0) {added c : ℕ}
    (hne : added ≠ 0) {k : ℕ} (hadd : added ≤ 2 ^ k)
    (hk : vt.size * 2 ^ k + vt.align ≤ isizeBound)
    (hc : computeCapacity vt.size (l.len + added) = .ok c) : vt.size * c < usizeBound := by
  obtain ⟨-, -, hbound⟩ := computeCapacity_ok (by omega) hc
  have hpos := vt.align_pos
  have hsize := vt.size_le
  have hlay := h.layout hs
  have hlen := h.len_le hs
  have key : ∃ m, l.len + added ≤ 2 ^ m ∧ vt.size * 2 ^ m < usizeBound := by
    have hdouble : ∀ m, vt.size * 2 ^ (m + 1) = 2 * (vt.size * 2 ^ m) := by
      intro m
      rw [Nat.pow_succ, Nat.mul_comm (2 ^ m) 2, Nat.mul_left_comm]
    rcases h.power hs with h0 | ⟨i, hi⟩
    · refine ⟨k, by omega, ?_⟩
      simp only [usizeBound, isizeBound] at *
      omega
    · rw [hi] at hlen hlay
      rcases le_total i k with hik | hki
      · have hmono : 2 ^ i ≤ 2 ^ k := Nat.pow_le_pow_right (by omega) hik
        refine ⟨k + 1, by rw [Nat.pow_succ]; omega, ?_⟩
        rw [hdouble]
        simp only [usizeBound, isizeBound] at *
        omega
      · have hmono : 2 ^ k ≤ 2 ^ i := Nat.pow_le_pow_right (by omega) hki
        refine ⟨i + 1, by rw [Nat.pow_succ]; omega, ?_⟩
        rw [hdouble]
        simp only [usizeBound, isizeBound] at *
        omega
  obtain ⟨m, hm, hlt⟩ := key
  rcases hbound m hm with hle | ⟨h1, hle⟩ | ⟨h1, hle⟩ | hle
  · exact lt_of_le_of_lt (Nat.mul_le_mul_left _ hle) hlt
  · rw [h1]
    simp only [usizeBound]
    omega
  · have hmul : vt.size * c ≤ 1024 * 4 := Nat.mul_le_mul h1 hle
    simp only [usizeBound]
    omega
  · have hmul : vt.size * c ≤ vt.size * 1 := Nat.mul_le_mul_left _ hle
    simp only [usizeBound, isizeBound] at *
    omega

theorem arrayLayout_ok {c r : ℕ} (hc : vt.size * c < usizeBound)
    (h : arrayLayout build vt c = .ok r) :
    r = vt.size * c ∧ vt.size * c + vt.align ≤ isizeBound := by
  obtain ⟨a, ha, h⟩ := bind_ok.mp h
  obtain rfl := usize_eq ha hc
  split at h
  · next hle => exact ⟨(Except.ok.inj h).symm, hle⟩
  · cases h

/-- What `reserve` leaves: room for the new elements, the bytes of the old ones, and a
capacity that has a layout. -/
structure Reserved (vt : VTable) (l l' : RawList) (added : ℕ) : Prop where
  len_eq : l'.len = l.len
  room : l.len + added ≤ l'.capacity
  power : ∃ k, l'.capacity = 2 ^ k
  layout : vt.size * l'.capacity + vt.align ≤ isizeBound
  mem_eq : ∀ a, a < vt.size * l.len → l'.mem a = l.mem a

theorem reserve_ok (h : Ok vt l) (hs : vt.size ≠ 0) {added k : ℕ} (hne : added ≠ 0)
    (hadd : added ≤ 2 ^ k) (hk : vt.size * 2 ^ k + vt.align ≤ isizeBound)
    (hr : reserve build vt fresh l added = .ok l') : Reserved vt l l' added := by
  simp only [reserve, hs, if_false] at hr
  obtain ⟨required, hreq, hr⟩ := bind_ok.mp hr
  obtain rfl := checked_ok hreq
  obtain ⟨c, hc, hr⟩ := bind_ok.mp hr
  obtain ⟨hroom, hpow, -⟩ := computeCapacity_ok (by omega) hc
  have hlen := h.len_le hs
  split at hr
  · next hgt =>
    unfold grow at hr
    obtain ⟨oldSize, hold, hr⟩ := bind_ok.mp hr
    obtain ⟨newSize, hnew, hr⟩ := bind_ok.mp hr
    obtain ⟨-, hlay⟩ := arrayLayout_ok (size_mul_newCapacity_lt h hs hne hadd hk hc) hnew
    obtain rfl := Except.ok.inj hr
    refine ⟨rfl, hroom, hpow, hlay, fun a ha => ?_⟩
    have holdSize : oldSize = vt.size * l.capacity := by
      unfold allocated at hold
      split at hold
      · next h0 => rw [h0, Nat.mul_zero]; exact (Except.ok.inj hold).symm
      · have hlt : vt.size * l.capacity < usizeBound := by
          have := h.layout hs
          simp only [usizeBound, isizeBound] at *
          omega
        exact (arrayLayout_ok hlt hold).1
    have hle : vt.size * l.len ≤ vt.size * l.capacity := Nat.mul_le_mul_left _ hlen
    exact if_pos (by omega)
  · obtain rfl := Except.ok.inj hr
    refine ⟨rfl, by omega, ?_, h.layout hs, fun _ _ => rfl⟩
    rcases h.power hs with h0 | hp
    · omega
    · exact hp

/-! ### Panics -/

/-- The capacity that `n` elements get has a layout. -/
def Fits (vt : VTable) (n : ℕ) : Prop :=
  n < usizeBound ∧
    (vt.size ≠ 0 → ∃ c, computeCapacity vt.size n = .ok c ∧ vt.size * c + vt.align ≤ isizeBound)

theorem checked_error {exact : ℕ} {s : Stop} (h : checked exact = .error s) :
    s = .panic ∧ usizeBound ≤ exact := by
  unfold checked at h
  split at h
  · cases h
  · exact ⟨(Except.error.inj h).symm, by omega⟩

theorem usize_error {exact : ℕ} {s : Stop} (h : build.usize exact = .error s) :
    s = .panic ∧ usizeBound ≤ exact := by
  unfold Build.usize at h
  split at h
  · cases h
  · split at h
    · exact ⟨(Except.error.inj h).symm, by omega⟩
    · cases h

theorem bind_error {α β : Type} {x : Except Stop α} {f : α → Except Stop β} {s : Stop} :
    (x >>= f) = .error s ↔ x = .error s ∨ ∃ a, x = .ok a ∧ f a = .error s := by
  cases x <;> simp [bind, Except.bind]

theorem computeCapacity_error {size required : ℕ} {s : Stop}
    (h : computeCapacity size required = .error s) : s = .panic := by
  unfold computeCapacity at h
  split at h
  · cases h
  · rcases bind_error.mp h with h | ⟨_, _, h⟩
    · exact (checked_error h).1
    · cases h

theorem arrayLayout_error {c : ℕ} {s : Stop} (h : arrayLayout build vt c = .error s) :
    s = .panic ∧ isizeBound < vt.size * c + vt.align := by
  have hpos := vt.align_pos
  rcases bind_error.mp h with h | ⟨r, hr, h⟩
  · have herr := usize_error h
    simp only [usizeBound, isizeBound] at *
    exact ⟨herr.1, by omega⟩
  · have hle : r ≤ vt.size * c := by
      unfold Build.usize at hr
      split at hr
      · exact le_of_eq (Except.ok.inj hr).symm
      · split at hr
        · cases hr
        · exact Except.ok.inj hr ▸ Nat.mod_le _ _
    split at h
    · cases h
    · exact ⟨(Except.error.inj h).symm, by omega⟩

theorem allocated_ne_error (h : Ok vt l) (hs : vt.size ≠ 0) (s : Stop) :
    allocated build vt l ≠ .error s := by
  intro herr
  unfold allocated at herr
  split at herr
  · cases herr
  · have hlay := h.layout hs
    have hbig := (arrayLayout_error herr).2
    omega

/-- Only a list that no allocation can hold makes `reserve` panic. -/
theorem reserve_error (h : Ok vt l) (hs : vt.size ≠ 0) {added : ℕ} {s : Stop}
    (hr : reserve build vt fresh l added = .error s) :
    s = .panic ∧ ¬ Fits vt (l.len + added) := by
  simp only [reserve, hs, if_false] at hr
  rcases bind_error.mp hr with hr | ⟨required, hreq, hr⟩
  · have herr := checked_error hr
    exact ⟨herr.1, fun hfit => absurd hfit.1 (by omega)⟩
  obtain rfl := checked_ok hreq
  rcases bind_error.mp hr with hr | ⟨c, hc, hr⟩
  · refine ⟨computeCapacity_error hr, fun hfit => ?_⟩
    obtain ⟨c, hc, -⟩ := hfit.2 hs
    rw [hr] at hc
    cases hc
  split at hr
  · rcases bind_error.mp hr with hr | ⟨oldSize, -, hr⟩
    · exact absurd hr (allocated_ne_error h hs s)
    rcases bind_error.mp hr with hr | ⟨newSize, -, hr⟩
    · have herr := arrayLayout_error hr
      refine ⟨herr.1, fun hfit => ?_⟩
      obtain ⟨c', hc', hle⟩ := hfit.2 hs
      obtain rfl := Except.ok.inj (hc.symm.trans hc')
      omega
    · cases hr
  · cases hr

theorem push_error (h : Ok vt l) {e : Bytes vt.size} {s : Stop}
    (hp : push build vt fresh l e = .error s) : s = .panic ∧ ¬ Fits vt (l.len + 1) := by
  rcases bind_error.mp hp with hp | ⟨l₁, h₁, hp⟩
  · split at hp
    · next hs =>
      rcases bind_error.mp hp with hp | ⟨_, _, hp⟩
      · exact reserve_error h (by omega) hp
      · cases hp
    · cases hp
  have hlen : l₁.len = l.len := by
    split at h₁
    · next hs =>
      obtain ⟨l₂, h₂, h₁⟩ := bind_ok.mp h₁
      obtain rfl := Except.ok.inj h₁
      exact (reserve_ok (k := 0) h (by omega) (by omega) le_rfl
        (by simpa using vt.size_le) h₂).len_eq
    · rw [← Except.ok.inj h₁]
  rcases bind_error.mp hp with hp | ⟨_, _, hp⟩
  · have herr := usize_error hp
    rw [hlen] at herr
    exact ⟨herr.1, fun hfit => absurd hfit.1 (by omega)⟩
  · cases hp

theorem extend_error (h : Ok vt l) (ho : Ok vt other) {s : Stop}
    (he : extend build vt fresh l other = .error s) :
    s = .panic ∧ ¬ Fits vt (l.len + other.len) := by
  have hbig : ∀ {exact : ℕ}, exact = l.len + other.len → build.usize exact = .error s →
      s = .panic ∧ ¬ Fits vt (l.len + other.len) := by
    intro exact heq hu
    have herr := usize_error hu
    exact ⟨herr.1, fun hfit => absurd hfit.1 (by omega)⟩
  by_cases hs : vt.size = 0
  · simp only [extend, hs, if_true] at he
    rcases bind_error.mp he with he | ⟨_, _, he⟩
    · exact hbig rfl he
    · cases he
  simp only [extend, hs, if_false] at he
  by_cases h0 : other.len = 0
  · simp only [h0, if_true] at he
    cases he
  simp only [h0, if_false] at he
  rcases bind_error.mp he with he | ⟨l₁, h₁, he⟩
  · exact reserve_error h hs he
  rcases bind_error.mp he with he | ⟨_, _, he⟩
  · obtain ⟨k, hk⟩ := ho.capacity_eq hs h0
    have hr := reserve_ok (k := k) h hs h0 (hk ▸ ho.len_le hs) (hk ▸ ho.layout hs) h₁
    exact hbig (by rw [hr.len_eq]) he
  · cases he

theorem computeCapacity_mono {size m n c : ℕ} (hmn : m ≤ n)
    (h : computeCapacity size n = .ok c) : ∃ c' ≤ c, computeCapacity size m = .ok c' := by
  by_cases hm : m = 0
  · exact ⟨0, Nat.zero_le _, by rw [computeCapacity, if_pos hm]; rfl⟩
  have hn : n ≠ 0 := by omega
  simp only [computeCapacity, hn, if_false] at h
  obtain ⟨next, hnext, h⟩ := bind_ok.mp h
  have hlt : nextPowerOfTwo n < usizeBound := by
    unfold checked at hnext
    split at hnext
    · assumption
    · cases hnext
  have hle : nextPowerOfTwo m ≤ nextPowerOfTwo n :=
    nextPowerOfTwo_le (hmn.trans (le_nextPowerOfTwo n))
  obtain rfl := checked_ok hnext
  obtain rfl := Except.ok.inj h
  refine ⟨_, max_le (hle.trans (le_max_left _ _)) (le_max_right _ _), ?_⟩
  simp only [computeCapacity, hm, if_false, checked, if_pos (lt_of_le_of_lt hle hlt)]
  rfl

theorem Fits.mono {m n : ℕ} (h : Fits vt n) (hmn : m ≤ n) : Fits vt m := by
  refine ⟨lt_of_le_of_lt hmn h.1, fun hs => ?_⟩
  obtain ⟨c, hc, hle⟩ := h.2 hs
  obtain ⟨c', hcc, hc'⟩ := computeCapacity_mono hmn hc
  have hmul : vt.size * c' ≤ vt.size * c := Nat.mul_le_mul_left _ hcc
  exact ⟨c', hc', by omega⟩

end RawList

/-! ### The sequence that a list stands for -/

/-- The values that the bytes of an element stand for, with what the functions of the
v-table do to them: a clone is the same value, and `eq_fn` decides `eq`. -/
structure Elements (vt : VTable) (α : Type) where
  decode : Bytes vt.size → α
  eq : α → α → Bool
  clone : ∀ f ∈ vt.cloneFn, ∀ e, decode (f e) = decode e
  eqFn : ∀ a b, vt.eqFn a b = eq (decode a) (decode b)

namespace RawList
variable {build : Build} {vt : VTable} {fresh : Memory} {l l' other : RawList} {i j n : ℕ}
variable {α : Type} (E : Elements vt α)

def contents (l : RawList) : List α := (List.range l.len).map fun i => E.decode (l.elem vt i)

@[simp] theorem length_contents : (l.contents E).length = l.len := by simp [contents]

theorem getElem?_contents :
    (l.contents E)[i]? = if i < l.len then some (E.decode (l.elem vt i)) else none := by
  by_cases h : i < l.len
  · simp [contents, h]
  · simp [contents, h]

theorem contents_new : (new vt).contents E = [] := rfl

theorem contents_append (hlen : l'.len = l.len + n)
    (hold : ∀ i < l.len, E.decode (l'.elem vt i) = E.decode (l.elem vt i)) :
    l'.contents E =
      l.contents E ++ (List.range n).map fun i => E.decode (l'.elem vt (l.len + i)) := by
  unfold contents
  rw [hlen, List.range_add, List.map_append, List.map_map]
  congr 1
  exact List.map_congr_left fun i hi => hold i (List.mem_range.mp hi)

/-- Elements of size zero are all the same block. -/
theorem elem_of_size_zero (h : vt.size = 0) (l l' : RawList) (i j : ℕ) :
    l.elem vt i = l'.elem vt j := by
  funext k
  exact absurd k.isLt (by omega)

theorem Reserved.elem_eq {added : ℕ} (hr : Reserved vt l l' added) (h : Ok vt l)
    (hi : i < l.len) : l'.elem vt i = l.elem vt i := by
  have hmul : vt.size * i + vt.size ≤ vt.size * l.len :=
    calc vt.size * i + vt.size = vt.size * (i + 1) := by rw [Nat.mul_succ]
      _ ≤ vt.size * l.len := Nat.mul_le_mul_left _ hi
  unfold elem
  rw [h.offsetOf_le hi.le]
  exact Memory.read_congr fun a _ ha => hr.mem_eq a (by omega)

/-- `push` and `extend` make one longer list of a reserved one. -/
theorem Reserved.ok {added : ℕ} (hr : Reserved vt l l' added)
    {m : Memory} {len : ℕ} (hlen : len = l.len + added) (hlt : len < usizeBound) :
    Ok vt { l' with mem := m, len := len } :=
  ⟨fun _ => hlen ▸ hr.room, fun _ => Or.inr hr.power, fun _ => hr.layout, hlt⟩

theorem reserve_lt (hs : vt.size ≠ 0) {added : ℕ}
    (hr : reserve build vt fresh l added = .ok l') : l.len + added < usizeBound := by
  simp only [reserve, hs, if_false] at hr
  obtain ⟨required, hreq, -⟩ := bind_ok.mp hr
  unfold checked at hreq
  split at hreq
  · assumption
  · cases hreq

theorem push_ok (h : Ok vt l) {e : Bytes vt.size} (hp : push build vt fresh l e = .ok l')
    (hz : vt.size = 0 → l.len + 1 < usizeBound) :
    Ok vt l' ∧ l'.contents E = l.contents E ++ [E.decode e] := by
  obtain ⟨l₁, h₁, hp⟩ := bind_ok.mp hp
  obtain ⟨len, hlen, hp⟩ := bind_ok.mp hp
  obtain rfl := Except.ok.inj hp
  by_cases hs : vt.size = 0
  · rw [if_neg (by omega)] at h₁
    obtain rfl := Except.ok.inj h₁
    obtain rfl := usize_eq hlen (hz hs)
    refine ⟨ok_of_size_zero hs (hz hs), ?_⟩
    rw [contents_append E (l := l) (n := 1) rfl fun i _ => by
      rw [elem_of_size_zero hs]]
    congr 1
    have he : ∀ (x : RawList) (i : ℕ), x.elem vt i = e := fun x i => by
      funext k
      exact absurd k.isLt (by omega)
    simp [List.range_succ, he]
  · rw [if_pos (by omega)] at h₁
    obtain ⟨l₂, h₂, h₁⟩ := bind_ok.mp h₁
    obtain rfl := Except.ok.inj h₁
    have hr := reserve_ok (k := 0) h hs (by omega) le_rfl (by simpa using vt.size_le) h₂
    have hlt := reserve_lt hs h₂
    simp only [hr.len_eq] at hlen
    obtain rfl := usize_eq hlen hlt
    have hok := hr.ok (m := l₂.mem.write (offsetOf vt l₂.len) e) rfl hlt
    refine ⟨hok, ?_⟩
    have hoff : offsetOf vt l₂.len = vt.size * l.len := by
      rw [hr.len_eq]
      exact hok.offsetOf_le (Nat.le_succ _)
    rw [contents_append E (l := l) (n := 1) rfl fun i hi => ?_]
    · congr 1
      simp [List.range_succ, elem, hr.len_eq]
    · rw [← hr.elem_eq h hi]
      unfold elem
      rw [h.offsetOf_le hi.le, hoff, Memory.read_write_other]
      exact (block_disjoint vt.size (by omega : i ≠ l.len))

/-- One round of the cloning loop writes one new element and leaves the others. -/
theorem cloneElems_read (f : Bytes vt.size → Bytes vt.size) (m : Memory) {len : ℕ} {is : List ℕ}
    (hoff : ∀ i ∈ is, offsetOf vt (len + i) = vt.size * (len + i)) :
    (∀ j, (∀ i ∈ is, j ≠ len + i) →
      (cloneElems vt f other len is m).read vt.size (vt.size * j) =
        m.read vt.size (vt.size * j)) ∧
    (is.Nodup → ∀ i ∈ is,
      (cloneElems vt f other len is m).read vt.size (vt.size * (len + i)) =
        f (other.elem vt i)) := by
  induction is generalizing m with
  | nil => exact ⟨fun _ _ => rfl, fun _ _ hi => absurd hi (List.not_mem_nil)⟩
  | cons i is ih =>
    obtain ⟨hother, hsame⟩ := ih (m := m.write (offsetOf vt (len + i)) (f (other.elem vt i)))
      fun j hj => hoff j (List.mem_cons_of_mem _ hj)
    have hi := hoff i (List.mem_cons_self ..)
    refine ⟨fun j hj => ?_, fun hnodup j hj => ?_⟩
    · have hne : j ≠ len + i := hj i (List.mem_cons_self ..)
      rw [cloneElems, hother j fun k hk => hj k (List.mem_cons_of_mem _ hk), hi,
        Memory.read_write_other (block_disjoint vt.size hne)]
    · obtain ⟨hnot, hnodup⟩ := List.nodup_cons.mp hnodup
      rw [cloneElems]
      rcases List.mem_cons.mp hj with rfl | hj
      · rw [hother _ fun k hk hjk => ?_, hi, Memory.read_write_same]
        obtain rfl : j = k := by omega
        exact hnot hk
      · exact hsame hnodup j hj

/-- Both ways of copying leave the old blocks and fill the new ones. -/
theorem copyElems_read (ho : Ok vt other)
    (hoff : ∀ i ≤ other.len, offsetOf vt (l.len + i) = vt.size * (l.len + i)) :
    (∀ i < l.len, (copyElems vt l other).read vt.size (vt.size * i) =
        l.mem.read vt.size (vt.size * i)) ∧
      ∀ i < other.len, E.decode ((copyElems vt l other).read vt.size (vt.size * (l.len + i))) =
        E.decode (other.elem vt i) := by
  unfold copyElems
  cases hc : vt.cloneFn with
  | some f =>
    have hclone := @cloneElems_read vt other f l.mem l.len (List.range other.len) fun i hi =>
      hoff i (List.mem_range.mp hi).le
    refine ⟨fun i hi => hclone.1 i fun j _ => by omega, fun i hi => ?_⟩
    show E.decode ((cloneElems vt f other l.len (List.range other.len) l.mem).read vt.size
      (vt.size * (l.len + i))) = _
    rw [hclone.2 List.nodup_range i (List.mem_range.mpr hi)]
    exact E.clone f hc _
  | none =>
    have hzero : offsetOf vt l.len = vt.size * l.len := hoff 0 (Nat.zero_le _)
    show (∀ i < l.len, (l.mem.copy (offsetOf vt l.len) other.mem (offsetOf vt other.len)).read
      vt.size (vt.size * i) = _) ∧ ∀ i < other.len, E.decode ((l.mem.copy (offsetOf vt l.len)
        other.mem (offsetOf vt other.len)).read vt.size (vt.size * (l.len + i))) = _
    rw [hzero, ho.offsetOf_le le_rfl]
    have hblock : ∀ i n, i < n → vt.size * i + vt.size ≤ vt.size * n := fun i n hi =>
      calc vt.size * i + vt.size = vt.size * (i + 1) := by rw [Nat.mul_succ]
        _ ≤ vt.size * n := Nat.mul_le_mul_left _ hi
    refine ⟨fun i hi => Memory.read_copy_before (hblock i _ hi), fun i hi => ?_⟩
    rw [Nat.mul_add, Memory.read_copy_inside (hblock i _ hi), elem, ho.offsetOf_le hi.le]

theorem extend_ok (h : Ok vt l) (ho : Ok vt other)
    (he : extend build vt fresh l other = .ok l')
    (hz : vt.size = 0 → l.len + other.len < usizeBound) :
    Ok vt l' ∧ l'.contents E = l.contents E ++ other.contents E := by
  by_cases hs : vt.size = 0
  · simp only [extend, hs, if_true] at he
    obtain ⟨len, hlen, he⟩ := bind_ok.mp he
    obtain rfl := Except.ok.inj he
    obtain rfl := usize_eq hlen (hz hs)
    refine ⟨ok_of_size_zero hs (hz hs), ?_⟩
    rw [contents_append E (l := l) rfl fun i _ => by rw [elem_of_size_zero hs]]
    congr 1
    exact List.map_congr_left fun i _ => by rw [elem_of_size_zero hs]
  simp only [extend, hs, if_false] at he
  by_cases h0 : other.len = 0
  · simp only [h0, if_true] at he
    obtain rfl := Except.ok.inj he
    refine ⟨h, ?_⟩
    have hnil : other.contents E = [] := List.length_eq_zero_iff.mp (by simp [h0])
    rw [hnil, List.append_nil]
  simp only [h0, if_false] at he
  obtain ⟨l₁, h₁, he⟩ := bind_ok.mp he
  obtain ⟨len, hlen, he⟩ := bind_ok.mp he
  obtain rfl := Except.ok.inj he
  obtain ⟨k, hk⟩ := ho.capacity_eq hs h0
  have hr := reserve_ok (k := k) h hs h0 (hk ▸ ho.len_le hs) (hk ▸ ho.layout hs) h₁
  have hlt := reserve_lt hs h₁
  rw [hr.len_eq] at hlen
  obtain rfl := usize_eq hlen hlt
  have hok := hr.ok (m := copyElems vt l₁ other) rfl hlt
  have hoff : ∀ i ≤ other.len, offsetOf vt (l.len + i) = vt.size * (l.len + i) := fun i hi =>
    hok.offsetOf_le (Nat.add_le_add_left hi _)
  have hread := copyElems_read E (l := l₁) ho (by rw [hr.len_eq]; exact hoff)
  rw [hr.len_eq] at hread
  refine ⟨hok, ?_⟩
  rw [contents_append E (l := l) rfl fun i hi => ?_]
  · congr 1
    refine List.map_congr_left fun i hi => ?_
    have hi := List.mem_range.mp hi
    rw [← hread.2 i hi, elem, hoff i hi.le]
  · have hoffi : offsetOf vt i = vt.size * i := h.offsetOf_le hi.le
    rw [← hr.elem_eq h hi, elem, elem, hoffi]
    exact congrArg E.decode (hread.1 i hi)

/-- `push` makes the longer sequence unless the length wraps. -/
theorem push_iff (h : Ok vt l) {e : Bytes vt.size} (hp : push build vt fresh l e = .ok l') :
    Ok vt l' ∧ (l'.contents E = l.contents E ++ [E.decode e] ↔
      (vt.size = 0 → l.len + 1 < usizeBound)) := by
  by_cases hz : vt.size = 0 → l.len + 1 < usizeBound
  · have hok := push_ok E h hp hz
    exact ⟨hok.1, fun _ => hz, fun _ => hok.2⟩
  · obtain ⟨hs, hwrap⟩ := Classical.not_imp.mp hz
    obtain ⟨l₁, h₁, hp⟩ := bind_ok.mp hp
    obtain ⟨len, hlen, hp⟩ := bind_ok.mp hp
    obtain rfl := Except.ok.inj hp
    refine ⟨ok_of_size_zero hs (usize_lt hlen), fun heq => ?_, fun hz' => absurd hz' hz⟩
    have hlens := congrArg List.length heq
    have hlt := usize_lt hlen
    simp only [length_contents, List.length_append, List.length_singleton] at hlens
    omega

/-- `extend` makes the longer sequence unless the length wraps. -/
theorem extend_iff (h : Ok vt l) (ho : Ok vt other)
    (he : extend build vt fresh l other = .ok l') :
    Ok vt l' ∧ (l'.contents E = l.contents E ++ other.contents E ↔
      (vt.size = 0 → l.len + other.len < usizeBound)) := by
  by_cases hz : vt.size = 0 → l.len + other.len < usizeBound
  · have hok := extend_ok E h ho he hz
    exact ⟨hok.1, fun _ => hz, fun _ => hok.2⟩
  · obtain ⟨hs, hwrap⟩ := Classical.not_imp.mp hz
    simp only [extend, hs, if_true] at he
    obtain ⟨len, hlen, he⟩ := bind_ok.mp he
    obtain rfl := Except.ok.inj he
    refine ⟨ok_of_size_zero hs (usize_lt hlen), fun heq => ?_, fun hz' => absurd hz' hz⟩
    have hlens := congrArg List.length heq
    have hlt := usize_lt hlen
    simp only [length_contents, List.length_append] at hlens
    omega

/-! ### Reading and swapping -/

theorem elem_getElem? {i : ℕ} (hi : i < l.len) :
    (l.contents E)[i]? = some (E.decode (l.elem vt i)) := by
  rw [getElem?_contents, if_pos hi]

/-- `get` finds an element exactly below the length, and it is the one of the sequence. -/
theorem get_eq (i : ℕ) :
    (l.get vt i).map (fun off => E.decode (l.mem.read vt.size off)) = (l.contents E)[i]? := by
  unfold get
  by_cases hi : i < l.len
  · rw [if_neg (by omega), elem_getElem? E hi]
    rfl
  · rw [if_pos (by omega), getElem?_contents, if_neg hi]
    rfl

theorem search_eq {item : Bytes vt.size} {is : List ℕ} (h : ∀ i ∈ is, i < l.len) :
    search vt l item is =
      .ok (is.find? fun i => E.eq (E.decode (l.elem vt i)) (E.decode item)) := by
  induction is with
  | nil => rfl
  | cons i is ih =>
    have hi := h i (List.mem_cons_self ..)
    have hget : l.get vt i = some (offsetOf vt i) := by rw [get, if_neg (by omega)]
    have heq : vt.eqFn (l.mem.read vt.size (offsetOf vt i)) item =
        E.eq (E.decode (l.elem vt i)) (E.decode item) := E.eqFn _ _
    rw [search, hget]
    simp only [heq, List.find?_cons]
    cases E.eq (E.decode (l.elem vt i)) (E.decode item) with
    | true => rfl
    | false => exact ih fun j hj => h j (List.mem_cons_of_mem _ hj)

theorem find?_range_map {β : Type} (f : ℕ → β) (p : β → Bool) (n : ℕ) :
    (List.range n).find? (fun i => p (f i)) = ((List.range n).map f).findIdx? p := by
  induction n with
  | zero => rfl
  | succ n ih =>
    rw [List.range_succ, List.map_append, List.find?_append, List.findIdx?_append, ih]
    cases h : p (f n) <;> simp [h]

theorem index_eq (item : Bytes vt.size) :
    l.index vt item = .ok ((l.contents E).findIdx? fun a => E.eq a (E.decode item)) := by
  unfold index
  rw [search_eq E fun i hi => List.mem_range.mp hi,
    find?_range_map (fun i => E.decode (l.elem vt i)) fun a => E.eq a (E.decode item)]
  rfl

theorem contains_eq (item : Bytes vt.size) :
    l.contains vt item = .ok ((l.contents E).any fun a => E.eq a (E.decode item)) := by
  have h := index_eq E (l := l) item
  unfold index at h
  unfold contains
  rw [h, ← List.findIdx?_isSome]
  rfl

/-- Swap two elements of a sequence; out of range nothing happens. -/
def swapped (xs : List α) (i j : ℕ) : List α :=
  match xs[i]?, xs[j]? with
  | some a, some b => (xs.set i b).set j a
  | _, _ => xs

theorem swap_ok (h : Ok vt l) : Ok vt (l.swap vt i j) := by
  unfold swap
  split_ifs
  · exact h
  · exact h
  · exact ⟨h.len_le, h.power, h.layout, h.len_lt⟩

theorem swap_len : (l.swap vt i j).len = l.len := by
  unfold swap
  split_ifs <;> rfl

theorem swap_elem (h : Ok vt l) (hi : i < l.len) (hj : j < l.len) {k : ℕ} (hk : k < l.len) :
    (l.swap vt i j).elem vt k =
      if k = j then l.elem vt i else if k = i then l.elem vt j else l.elem vt k := by
  unfold swap
  rw [if_neg (by omega)]
  by_cases hij : i = j
  · subst hij
    rw [if_pos rfl]
    split_ifs with h1
    · rw [h1]
    · rfl
  rw [if_neg hij]
  simp only [elem, Memory.swap, h.offsetOf_le hi.le, h.offsetOf_le hj.le, h.offsetOf_le hk.le]
  split_ifs with h1 h2
  · rw [h1, Memory.read_write_same]
  · rw [h2, Memory.read_write_other (block_disjoint vt.size hij), Memory.read_write_same]
  · rw [Memory.read_write_other (block_disjoint vt.size h1),
      Memory.read_write_other (block_disjoint vt.size h2)]

theorem contents_swap (h : Ok vt l) :
    (l.swap vt i j).contents E = swapped (l.contents E) i j := by
  by_cases hi : i < l.len
  · by_cases hj : j < l.len
    · refine List.ext_getElem? fun k => ?_
      have hset : swapped (l.contents E) i j =
          ((l.contents E).set i (E.decode (l.elem vt j))).set j (E.decode (l.elem vt i)) := by
        rw [swapped, elem_getElem? E hi, elem_getElem? E hj]
      rw [hset]
      by_cases hk : k < l.len
      · rw [elem_getElem? E (by rw [swap_len]; exact hk), swap_elem h hi hj hk]
        by_cases hkj : k = j
        · subst hkj
          rw [if_pos rfl, List.getElem?_set_self (by simpa using hk)]
        · rw [if_neg hkj, List.getElem?_set_ne (Ne.symm hkj)]
          by_cases hki : k = i
          · subst hki
            rw [if_pos rfl, List.getElem?_set_self (by simpa using hk)]
          · rw [if_neg hki, List.getElem?_set_ne (Ne.symm hki), elem_getElem? E hk]
      · rw [List.getElem?_eq_none (by rw [length_contents, swap_len]; omega),
          List.getElem?_eq_none (by simp; omega)]
    · have hswap : l.swap vt i j = l := by rw [swap, if_pos (Or.inr (by omega))]
      have hnone : (l.contents E)[j]? = none := by rw [getElem?_contents, if_neg hj]
      rw [hswap, swapped, hnone]
      cases (l.contents E)[i]? <;> rfl
  · have hswap : l.swap vt i j = l := by rw [swap, if_pos (Or.inl (by omega))]
    have hnone : (l.contents E)[i]? = none := by rw [getElem?_contents, if_neg hi]
    rw [hswap, swapped, hnone]

end RawList

end Roto.Value
