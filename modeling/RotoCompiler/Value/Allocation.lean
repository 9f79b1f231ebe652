import RotoCompiler.Value.ListRuns

/-!
# The allocation of a list (value/list.rs)

The calls of the allocator that a list makes, with the layouts that it gives them. A layout is
computed from the capacity at each call, with a product that may wrap, so that what has been
allocated is not what is said about it by construction.
-/

namespace Roto.Value
open Lib RawList

/-- `std::alloc::Layout`. -/
structure Block where
  size : ℕ
  align : ℕ
  deriving DecidableEq, Repr

inductive AllocCall where
  | alloc (layout : Block)
  | realloc (old : Block) (newSize : ℕ)
  | dealloc (layout : Block)
  deriving DecidableEq, Repr

/-- The block behind a pointer after a call, for a block before it; `none` for a call that the
allocator does not allow. -/
def AllocCall.apply : Option Block → AllocCall → Option (Option Block)
  | none, .alloc layout => if layout.size ≠ 0 then some (some layout) else none
  | some b, .realloc old newSize =>
    if old = b ∧ newSize ≠ 0 ∧ newSize + b.align ≤ isizeBound then some (some ⟨newSize, b.align⟩)
    else none
  | some b, .dealloc layout => if layout = b then some none else none
  | _, _ => none

/-- The block behind a pointer after all calls about it. -/
def replay : Option Block → List AllocCall → Option (Option Block)
  | b, [] => some b
  | b, c :: cs => (c.apply b).bind fun b => replay b cs

theorem replay_append (b : Option Block) (as bs : List AllocCall) :
    replay b (as ++ bs) = (replay b as).bind fun b => replay b bs := by
  induction as generalizing b with
  | nil => rfl
  | cons a as ih =>
    rw [List.cons_append, replay, replay]
    cases a.apply b with
    | none => rfl
    | some b' => exact ih b'

/-- A list with the calls that it has made. -/
structure AllocatedList extends RawList where
  calls : List AllocCall

/-- The least capacity of `compute_capacity`. -/
def minimumCapacity (size : ℕ) : ℕ := if size = 1 then 8 else if size ≤ 1024 then 4 else 1

namespace AllocatedList
variable (build : Build) (vt : VTable)

/-- `realloc_array`, or `alloc_array` where `current_memory` is `None`. -/
def grow (fresh : Memory) (l : AllocatedList) (newCapacity : ℕ) : Except Stop AllocatedList :=
  if l.capacity = 0 then do
    let newSize ← arrayLayout build vt newCapacity
    return { l with
      mem := fresh
      capacity := newCapacity
      calls := l.calls ++ [.alloc ⟨newSize, vt.align⟩] }
  else do
    let oldSize ← arrayLayout build vt l.capacity
    let newSize ← arrayLayout build vt newCapacity
    return { l with
      mem := fun a => if a < oldSize then l.mem a else fresh a
      capacity := newCapacity
      calls := l.calls ++ [.realloc ⟨oldSize, vt.align⟩ newSize] }

def reserve (fresh : Memory) (l : AllocatedList) (added : ℕ) : Except Stop AllocatedList := do
  if vt.size = 0 then return l
  let newRequired ← checked (l.len + added)
  let newCapacity ← computeCapacity vt.size newRequired
  if newCapacity > l.capacity then grow build vt fresh l newCapacity else return l

def new : AllocatedList := { RawList.new vt with calls := [] }

def push (fresh : Memory) (l : AllocatedList) (e : Bytes vt.size) : Except Stop AllocatedList := do
  let l ← (if vt.size > 0 then do
      let l ← reserve build vt fresh l 1
      return { l with mem := l.mem.write (offsetOf vt l.len) e }
    else .ok l)
  let len ← build.usize (l.len + 1)
  return { l with len := len }

def extend (fresh : Memory) (l : AllocatedList) (other : RawList) : Except Stop AllocatedList := do
  if vt.size = 0 then
    let len ← build.usize (l.len + other.len)
    return { l with len := len }
  if other.len = 0 then return l
  let l ← reserve build vt fresh l other.len
  let len ← build.usize (l.len + other.len)
  return { l with mem := copyElems vt l.toRawList other, len := len }

def swap (l : AllocatedList) (i j : ℕ) : AllocatedList :=
  { l with toRawList := l.toRawList.swap vt i j }

/-- `dealloc`, the calls at the end of `drop`. -/
def dealloc (l : AllocatedList) : Except Stop (List AllocCall) :=
  if vt.size = 0 then .ok []
  else if l.capacity = 0 then .ok []
  else do
    let size ← arrayLayout build vt l.capacity
    return [.dealloc ⟨size, vt.align⟩]

end AllocatedList

/-! ### The calls are left out -/

section
variable {build : Build} {vt : VTable} {fresh : Memory} {l l' : AllocatedList} {other : RawList} {n : ℕ}

theorem grow_toRawList :
    (l.grow build vt fresh n).map AllocatedList.toRawList =
      RawList.grow build vt fresh l.toRawList n := by
  unfold AllocatedList.grow RawList.grow allocated
  by_cases h0 : l.capacity = 0
  · rw [if_pos h0, if_pos h0]
    cases arrayLayout build vt n with
    | error e => rfl
    | ok size => simp [bind, Except.bind, pure, Except.pure, Except.map]
  · rw [if_neg h0, if_neg h0]
    cases arrayLayout build vt l.capacity with
    | error e => rfl
    | ok old => cases arrayLayout build vt n <;> rfl

theorem reserve_toRawList :
    (l.reserve build vt fresh n).map AllocatedList.toRawList =
      RawList.reserve build vt fresh l.toRawList n := by
  unfold AllocatedList.reserve RawList.reserve
  by_cases hs : vt.size = 0
  · simp only [hs, if_true]
    rfl
  · simp only [hs, if_false]
    cases checked (l.len + n) with
    | error e => rfl
    | ok required =>
      cases hc : computeCapacity vt.size required with
      | error e => simp [bind, Except.bind, hc, Except.map]
      | ok c =>
        by_cases hgt : c > l.capacity
        · simp only [bind, Except.bind, hc, hgt, if_true]
          exact grow_toRawList
        · simp [bind, Except.bind, hc, hgt, pure, Except.pure, Except.map]

/-- A reservation of the one list is one of the other. -/
theorem reserve_cases : (∃ e, l.reserve build vt fresh n = .error e ∧
      RawList.reserve build vt fresh l.toRawList n = .error e) ∨
    ∃ l', l.reserve build vt fresh n = .ok l' ∧
      RawList.reserve build vt fresh l.toRawList n = .ok l'.toRawList := by
  have hmap := @reserve_toRawList build vt fresh l n
  cases h : l.reserve build vt fresh n with
  | error e => exact .inl ⟨e, rfl, by rw [← hmap, h]; rfl⟩
  | ok l' => exact .inr ⟨l', rfl, by rw [← hmap, h]; rfl⟩

theorem push_toRawList (e : Bytes vt.size) :
    (l.push build vt fresh e).map AllocatedList.toRawList =
      RawList.push build vt fresh l.toRawList e := by
  unfold AllocatedList.push RawList.push
  by_cases hs : vt.size > 0
  · simp only [hs, if_true, RawList.store]
    rcases @reserve_cases build vt fresh l 1 with ⟨s, hl, hr⟩ | ⟨l', hl, hr⟩
    · simp [hl, hr, bind, Except.bind, Except.map]
    · cases hu : build.usize (l'.len + 1) <;>
        simp [hl, hr, hu, bind, Except.bind, pure, Except.pure, Except.map]
  · simp only [hs, if_false]
    cases hu : build.usize (l.len + 1) <;>
      simp [hu, bind, Except.bind, pure, Except.pure, Except.map]

theorem extend_toRawList :
    (l.extend build vt fresh other).map AllocatedList.toRawList =
      RawList.extend build vt fresh l.toRawList other := by
  unfold AllocatedList.extend RawList.extend
  by_cases hs : vt.size = 0
  · simp only [hs, if_true]
    cases hu : build.usize (l.len + other.len) <;>
      simp [bind, Except.bind, pure, Except.pure, Except.map]
  · simp only [hs, if_false]
    by_cases h0 : other.len = 0
    · simp [h0, pure, Except.pure, Except.map]
    · simp only [h0, if_false]
      rcases @reserve_cases build vt fresh l other.len with ⟨s, hl, hr⟩ | ⟨l', hl, hr⟩
      · simp [hl, hr, bind, Except.bind, Except.map]
      · cases hu : build.usize (l'.len + other.len) <;>
          simp [hl, hr, hu, bind, Except.bind, pure, Except.pure, Except.map]

end

/-! ### Reachable lists -/

/-- The lists that are made from new ones. A panic can leave a list as it is after it has
reserved. -/
inductive Reachable (build : Build) (vt : VTable) : AllocatedList → Prop where
  | new : Reachable build vt (.new vt)
  | reserved {l other l' : AllocatedList} {n : ℕ} {fresh : Memory} (h : Reachable build vt l)
      (ho : Reachable build vt other) (hn : n = 0 ∨ n = 1 ∨ n = other.len)
      (hr : l.reserve build vt fresh n = .ok l') : Reachable build vt l'
  | pushed {l l' : AllocatedList} {e : Bytes vt.size} {fresh : Memory} (h : Reachable build vt l)
      (hp : l.push build vt fresh e = .ok l') : Reachable build vt l'
  | extended {l other l' : AllocatedList} {fresh : Memory} (h : Reachable build vt l)
      (ho : Reachable build vt other) (he : l.extend build vt fresh other.toRawList = .ok l') :
      Reachable build vt l'
  | swapped {l : AllocatedList} {i j : ℕ} (h : Reachable build vt l) :
      Reachable build vt (l.swap vt i j)

/-- The block that a capacity stands for. -/
def block (vt : VTable) (capacity : ℕ) : Option Block :=
  if capacity = 0 then none else some ⟨vt.size * capacity, vt.align⟩

/-- The list is sound, and its block has exactly the bytes of the capacity. -/
structure Exact (vt : VTable) (l : AllocatedList) : Prop where
  ok : RawList.Ok vt l.toRawList
  least : l.capacity = 0 ∨ minimumCapacity vt.size ≤ l.capacity
  calls : replay none l.calls = some (block vt l.capacity)

section
variable {build : Build} {vt : VTable} {fresh : Memory} {l l' : AllocatedList} {n : ℕ}

theorem exact_new (hs : vt.size ≠ 0) : Exact vt (.new vt) := by
  have hcapacity : (AllocatedList.new vt).capacity = 0 := by
    simp [AllocatedList.new, RawList.new, hs]
  refine ⟨RawList.ok_new, .inl hcapacity, ?_⟩
  rw [hcapacity]
  rfl

theorem minimumCapacity_le {size required c : ℕ} (hr : required ≠ 0)
    (h : computeCapacity size required = .ok c) : minimumCapacity size ≤ c := by
  simp only [computeCapacity, hr, if_false] at h
  obtain ⟨next, -, h⟩ := bind_ok.mp h
  obtain rfl := Except.ok.inj h
  exact le_max_right _ _

/-- The current layout is computed without a wrap. -/
theorem arrayLayout_capacity (h : RawList.Ok vt l.toRawList) (hs : vt.size ≠ 0) {size : ℕ}
    (hl : arrayLayout build vt l.capacity = .ok size) : size = vt.size * l.capacity := by
  have hlay := h.layout hs
  have hlt : vt.size * l.capacity < usizeBound := by
    simp only [usizeBound, isizeBound] at *
    omega
  exact (arrayLayout_ok hlt hl).1

/-- A reservation for no more than what is in another list keeps the block exact. -/
theorem reserve_exact (h : Exact vt l) (hs : vt.size ≠ 0) {k : ℕ} (hne : n ≠ 0)
    (hn : n ≤ 2 ^ k) (hk : vt.size * 2 ^ k + vt.align ≤ isizeBound)
    (hr : l.reserve build vt fresh n = .ok l') :
    Exact vt l' ∧ Reserved vt l.toRawList l'.toRawList n := by
  have hraw : RawList.reserve build vt fresh l.toRawList n = .ok l'.toRawList := by
    rw [← reserve_toRawList, hr]
    rfl
  have hreserved := reserve_ok h.ok hs hne hn hk hraw
  refine ⟨⟨?_, ?_, ?_⟩, hreserved⟩
  · refine ⟨fun _ => ?_, fun _ => .inr hreserved.power, fun _ => hreserved.layout, ?_⟩
    · rw [hreserved.len_eq]
      exact (Nat.le_add_right _ _).trans hreserved.room
    · rw [hreserved.len_eq]
      exact h.ok.len_lt
  all_goals
    simp only [AllocatedList.reserve, hs, if_false] at hr
    obtain ⟨required, hreq, hr⟩ := bind_ok.mp hr
    obtain rfl := checked_ok hreq
    obtain ⟨c, hc, hr⟩ := bind_ok.mp hr
    split at hr
  · next hgt =>
    have hcapacity : l'.capacity = c := by
      unfold AllocatedList.grow at hr
      split at hr
      · obtain ⟨size, -, hr⟩ := bind_ok.mp hr
        obtain rfl := Except.ok.inj hr
        rfl
      · obtain ⟨old, -, hr⟩ := bind_ok.mp hr
        obtain ⟨size, -, hr⟩ := bind_ok.mp hr
        obtain rfl := Except.ok.inj hr
        rfl
    rw [hcapacity]
    exact .inr (minimumCapacity_le (by omega) hc)
  · obtain rfl := Except.ok.inj hr
    exact h.least
  · next hgt =>
    have hlt := size_mul_newCapacity_lt h.ok hs hne hn hk hc
    have hc0 : c ≠ 0 := by omega
    have hpos : vt.size * c ≠ 0 := Nat.mul_ne_zero hs hc0
    unfold AllocatedList.grow at hr
    split at hr
    · next h0 =>
      obtain ⟨size, hsize, hr⟩ := bind_ok.mp hr
      obtain ⟨rfl, -⟩ := arrayLayout_ok hlt hsize
      obtain rfl := Except.ok.inj hr
      show replay none (l.calls ++ [.alloc ⟨vt.size * c, vt.align⟩]) = some (block vt c)
      rw [replay_append, h.calls, h0]
      simp [block, replay, AllocCall.apply, hpos, hc0, -ne_eq]
    · next h0 =>
      obtain ⟨old, hold, hr⟩ := bind_ok.mp hr
      obtain ⟨size, hsize, hr⟩ := bind_ok.mp hr
      obtain ⟨rfl, hfits⟩ := arrayLayout_ok hlt hsize
      obtain rfl := arrayLayout_capacity h.ok hs hold
      obtain rfl := Except.ok.inj hr
      show replay none (l.calls ++ [.realloc ⟨vt.size * l.capacity, vt.align⟩ (vt.size * c)]) =
        some (block vt c)
      rw [replay_append, h.calls]
      simp [block, replay, AllocCall.apply, hpos, h0, hc0, hfits, -ne_eq]
  · obtain rfl := Except.ok.inj hr
    exact h.calls

/-- Reserving nothing changes nothing. -/
theorem reserve_zero (h : Exact vt l) (hr : l.reserve build vt fresh 0 = .ok l') : l' = l := by
  by_cases hs : vt.size = 0
  · simp only [AllocatedList.reserve, hs, if_true] at hr
    exact (Except.ok.inj hr).symm
  simp only [AllocatedList.reserve, hs, if_false] at hr
  obtain ⟨required, hreq, hr⟩ := bind_ok.mp hr
  obtain rfl := checked_ok hreq
  obtain ⟨c, hc, hr⟩ := bind_ok.mp hr
  split at hr
  · next hgt =>
    exfalso
    have hlen := h.ok.len_le hs
    by_cases h0 : l.len = 0
    · rw [computeCapacity, if_pos (by omega)] at hc
      have hzero : 0 = c := Except.ok.inj hc
      omega
    · -- the capacity is a power of two that the elements fit in, and at least the least one
      rcases h.least with hcap | hleast
      · omega
      obtain ⟨k, hk⟩ := h.ok.capacity_eq hs h0
      rw [computeCapacity, if_neg (by omega)] at hc
      obtain ⟨next, hnext, hc⟩ := bind_ok.mp hc
      obtain rfl := checked_ok hnext
      have hmax : max (nextPowerOfTwo (l.len + 0)) (minimumCapacity vt.size) = c := Except.ok.inj hc
      have hle : nextPowerOfTwo (l.len + 0) ≤ l.capacity := by
        rw [hk]
        refine nextPowerOfTwo_le ?_
        rw [← hk]
        exact hlen
      have hbound := max_le hle hleast
      omega
  · exact (Except.ok.inj hr).symm

/-- What a caller of `reserve` asks for: nothing, one element, or those of another list. -/
theorem requested (h : Exact vt l) (hs : vt.size ≠ 0) {other : AllocatedList} (ho : Exact vt other)
    (hn : n = 0 ∨ n = 1 ∨ n = other.len) (hr : l.reserve build vt fresh n = .ok l') :
    Exact vt l' ∧ l'.len = l.len ∧ l.len + n ≤ l'.capacity ∧
      ∀ i < l.len, l'.elem vt i = l.elem vt i := by
  by_cases h0 : n = 0
  · subst h0
    obtain rfl := reserve_zero h hr
    exact ⟨h, rfl, h.ok.len_le hs, fun _ _ => rfl⟩
  · have hbound : ∃ k, n ≤ 2 ^ k ∧ vt.size * 2 ^ k + vt.align ≤ isizeBound := by
      rcases hn with rfl | rfl | rfl
      · exact absurd rfl h0
      · exact ⟨0, le_rfl, by simpa using vt.size_le⟩
      · obtain ⟨k, hk⟩ := ho.ok.capacity_eq hs h0
        exact ⟨k, hk ▸ ho.ok.len_le hs, hk ▸ ho.ok.layout hs⟩
    obtain ⟨k, hk, hlay⟩ := hbound
    obtain ⟨hexact, hreserved⟩ := reserve_exact h hs h0 hk hlay hr
    exact ⟨hexact, hreserved.len_eq, hreserved.room, fun i hi => hreserved.elem_eq h.ok hi⟩

theorem Exact.filled (h : Exact vt l) {m : Memory} {len : ℕ} (hle : len ≤ l.capacity)
    (hlt : len < usizeBound) :
    Exact vt ⟨{ l.toRawList with mem := m, len := len }, l.calls⟩ where
  ok := ⟨fun _ => hle, h.ok.power, h.ok.layout, hlt⟩
  least := h.least
  calls := h.calls

theorem push_exact (h : Exact vt l) (hs : vt.size ≠ 0) {e : Bytes vt.size}
    (hp : l.push build vt fresh e = .ok l') : Exact vt l' := by
  unfold AllocatedList.push at hp
  rw [if_pos (Nat.pos_of_ne_zero hs)] at hp
  obtain ⟨l₁, h₁, hp⟩ := bind_ok.mp hp
  obtain ⟨l₂, h₂, h₁⟩ := bind_ok.mp h₁
  obtain rfl := Except.ok.inj h₁
  obtain ⟨hexact, hlen, hroom, -⟩ := requested h hs h (.inr (.inl rfl)) h₂
  obtain ⟨len, hlen', hp⟩ := bind_ok.mp hp
  obtain rfl := Except.ok.inj hp
  have hlen' : build.usize (l₂.len + 1) = .ok len := hlen'
  rw [hlen] at hlen'
  have hlt := hexact.ok.layout hs
  have hle : l₂.capacity ≤ vt.size * l₂.capacity := Nat.le_mul_of_pos_left _ (Nat.pos_of_ne_zero hs)
  have hbound : l.len + 1 < usizeBound := by
    simp only [usizeBound, isizeBound] at *
    omega
  obtain rfl := usize_eq hlen' hbound
  exact hexact.filled hroom hbound

theorem extend_exact (h : Exact vt l) (hs : vt.size ≠ 0) {other : AllocatedList}
    (ho : Exact vt other) (he : l.extend build vt fresh other.toRawList = .ok l') : Exact vt l' := by
  simp only [AllocatedList.extend, hs, if_false] at he
  split at he
  · obtain rfl := Except.ok.inj he
    exact h
  · obtain ⟨l₁, h₁, he⟩ := bind_ok.mp he
    obtain ⟨hexact, hlen, hroom, -⟩ := requested h hs ho (.inr (.inr rfl)) h₁
    obtain ⟨len, hlen', he⟩ := bind_ok.mp he
    obtain rfl := Except.ok.inj he
    rw [hlen] at hlen'
    have hlt := hexact.ok.layout hs
    have hle : l₁.capacity ≤ vt.size * l₁.capacity :=
      Nat.le_mul_of_pos_left _ (Nat.pos_of_ne_zero hs)
    have hbound : l.len + other.len < usizeBound := by
      simp only [usizeBound, isizeBound] at *
      omega
    obtain rfl := usize_eq hlen' hbound
    exact hexact.filled hroom hbound

theorem swap_exact (h : Exact vt l) (i j : ℕ) : Exact vt (l.swap vt i j) := by
  have hcapacity : (l.swap vt i j).capacity = l.capacity := by
    show (l.toRawList.swap vt i j).capacity = l.capacity
    unfold RawList.swap
    split_ifs <;> rfl
  refine ⟨swap_ok h.ok, ?_, ?_⟩
  · rw [hcapacity]
    exact h.least
  · rw [hcapacity]
    exact h.calls

theorem reachable_exact (hs : vt.size ≠ 0) (h : Reachable build vt l) : Exact vt l := by
  induction h with
  | new => exact exact_new hs
  | reserved _ _ hn hr ih iho => exact (requested ih hs iho hn hr).1
  | pushed _ hp ih => exact push_exact ih hs hp
  | extended _ _ he ih iho => exact extend_exact ih hs iho he
  | swapped _ ih => exact swap_exact ih _ _

/-- The block is given back with the layout that it was allocated with. -/
theorem dealloc_exact (h : Exact vt l) (hs : vt.size ≠ 0) :
    ∃ calls, l.dealloc build vt = .ok calls ∧ replay none (l.calls ++ calls) = some none := by
  unfold AllocatedList.dealloc
  rw [if_neg hs]
  by_cases h0 : l.capacity = 0
  · rw [if_pos h0]
    refine ⟨[], rfl, ?_⟩
    rw [List.append_nil, h.calls, h0]
    rfl
  · rw [if_neg h0]
    have hlay := h.ok.layout hs
    have hlt : vt.size * l.capacity < usizeBound := by
      simp only [usizeBound, isizeBound] at *
      omega
    have hsize : arrayLayout build vt l.capacity = .ok (vt.size * l.capacity) := by
      simp [arrayLayout, Build.usize, hlt, hlay, bind, Except.bind, pure, Except.pure]
    refine ⟨[.dealloc ⟨vt.size * l.capacity, vt.align⟩], ?_, ?_⟩
    · rw [hsize]
      rfl
    · rw [replay_append, h.calls]
      simp [block, h0, replay, AllocCall.apply]

/-- The allocator allows every call of a reachable list, whose block has exactly the bytes of its
capacity until it is given back; and a reservation makes room and keeps the elements. -/
theorem allocation_exact (hs : vt.size ≠ 0) (h : Reachable build vt l) :
    l.len ≤ l.capacity ∧ (l.capacity = 0 ∨ minimumCapacity vt.size ≤ l.capacity) ∧
      vt.size * l.capacity < usizeBound ∧
      replay none l.calls = some (block vt l.capacity) ∧
      (∀ other n fresh l', Reachable build vt other → n = 0 ∨ n = 1 ∨ n = other.len →
        l.reserve build vt fresh n = .ok l' → l'.len = l.len ∧ l.len + n ≤ l'.capacity ∧
          ∀ i < l.len, l'.elem vt i = l.elem vt i) ∧
      ∃ calls, l.dealloc build vt = .ok calls ∧ replay none (l.calls ++ calls) = some none := by
  have hexact := reachable_exact hs h
  have hlay := hexact.ok.layout hs
  refine ⟨hexact.ok.len_le hs, hexact.least, ?_, hexact.calls, ?_, dealloc_exact hexact hs⟩
  · simp only [usizeBound, isizeBound] at *
    omega
  · intro other n fresh l' ho hn hr
    exact (requested hexact hs (reachable_exact hs ho) hn hr).2

end

/-- Elements like `u64`. -/
def wordVTable : VTable where
  size := 8
  align := 8
  cloneFn := none
  eqFn _ _ := true
  align_pos := by decide
  size_le := by decide

theorem push_word : (AllocatedList.new wordVTable).push release wordVTable (fun _ => 0) (fun _ => 0) =
    .ok ⟨⟨Memory.write (fun _ => 0) 0 fun _ : Fin 8 => 0, 1, 4⟩, [.alloc ⟨32, 8⟩]⟩ := by
  simp [AllocatedList.push, AllocatedList.new, AllocatedList.reserve, AllocatedList.grow, RawList.new,
    wordVTable, checked, computeCapacity, nextPowerOfTwo, usizeBound, arrayLayout, Build.usize,
    isizeBound, bind, Except.bind, pure, Except.pure, offsetOf]

theorem allocation_exact_word : ∃ l, Reachable release wordVTable l ∧ l.len = 1 ∧
    replay none l.calls = some (some ⟨32, 8⟩) := by
  have h : Reachable release wordVTable _ := .pushed .new push_word
  exact ⟨_, h, rfl, (allocation_exact (by decide) h).2.2.2.1⟩

/-! ### The lists of a run -/

/-- The worlds that list operations reach. -/
inductive World.Reached (build : Build) (vt : VTable) : World → Prop where
  | empty : World.Reached build vt World.empty
  | step {w w' : World} {op : Op vt} {fresh : Memory} {out : Output (Bytes vt.size)}
      (h : World.Reached build vt w) (hs : step build fresh w op = .ok (out, w')) :
      World.Reached build vt w'

section
variable {build : Build} {vt : VTable} {fresh : Memory} {w w' : World} {h : ℕ} {l : RawList}

/-- All locks are free, and every list is made as reachable lists are. -/
structure World.Made (build : Build) (vt : VTable) (w : World) : Prop where
  held : w.held = []
  lists : ∀ l ∈ w.lists, ∃ l', Reachable build vt l' ∧ l'.toRawList = l

theorem World.Made.get (hw : World.Made build vt w) (hl : w.lists[h]? = some l) :
    ∃ l', Reachable build vt l' ∧ l'.toRawList = l := hw.lists l (List.mem_of_getElem? hl)

theorem World.Made.set (hw : World.Made build vt w) {l' : AllocatedList}
    (hl : Reachable build vt l') (h : ℕ) :
    World.Made build vt { w with lists := w.lists.set h l'.toRawList } := by
  refine ⟨hw.held, fun l hl' => ?_⟩
  rcases List.mem_or_eq_of_mem_set hl' with hmem | rfl
  · exact hw.lists l hmem
  · exact ⟨l', hl, rfl⟩

theorem push_made {a : AllocatedList} {b : RawList} (ha : Reachable build vt a)
    {e : Bytes vt.size} (hp : a.toRawList.push build vt fresh e = .ok b) :
    ∃ b', Reachable build vt b' ∧ b'.toRawList = b := by
  have hmap := @push_toRawList build vt fresh a e
  rw [hp] at hmap
  cases hr : a.push build vt fresh e with
  | error s =>
    rw [hr] at hmap
    cases hmap
  | ok b' =>
    rw [hr] at hmap
    exact ⟨b', .pushed ha hr, Except.ok.inj hmap⟩

theorem extend_made {a c : AllocatedList} {b : RawList} (ha : Reachable build vt a)
    (hc : Reachable build vt c)
    (he : a.toRawList.extend build vt fresh c.toRawList = .ok b) :
    ∃ b', Reachable build vt b' ∧ b'.toRawList = b := by
  have hmap := @extend_toRawList build vt fresh a c.toRawList
  rw [he] at hmap
  cases hr : a.extend build vt fresh c.toRawList with
  | error s =>
    rw [hr] at hmap
    cases hmap
  | ok b' =>
    rw [hr] at hmap
    exact ⟨b', .extended ha hc hr, Except.ok.inj hmap⟩

theorem raw_of_ok {β : Type} {k : World → RawList → Except Stop β} {b : β}
    (hw : w.held = []) (hr : (do
      let w ← w.lock h
      let l ← w.raw h
      k w l) = .ok b) : ∃ l, w.lists[h]? = some l := by
  cases hl : w.lists[h]? with
  | some l => exact ⟨l, rfl⟩
  | none => simp [World.lock, World.raw, hw, hl, bind, Except.bind] at hr

theorem made_step (hw : World.Made build vt w) {op : Op vt} {out : Output (Bytes vt.size)}
    (hs : step build fresh w op = .ok (out, w')) : World.Made build vt w' := by
  cases op with
  | new =>
    obtain ⟨-, rfl⟩ := Prod.mk.inj (Except.ok.inj hs)
    refine ⟨hw.held, fun l hl => ?_⟩
    rcases List.mem_append.mp hl with hmem | hmem
    · exact hw.lists l hmem
    · obtain rfl := List.mem_singleton.mp hmem
      exact ⟨.new vt, .new, rfl⟩
  | push h e =>
    obtain ⟨w₁, hrun, hs⟩ := bind_ok.mp hs
    obtain ⟨-, rfl⟩ := Prod.mk.inj (Except.ok.inj hs)
    obtain ⟨l, hl⟩ := raw_of_ok hw.held hrun
    rw [push_eq hw.held hl] at hrun
    obtain ⟨l', hp, hrun⟩ := bind_ok.mp hrun
    obtain rfl := Except.ok.inj hrun
    obtain ⟨a, ha, rfl⟩ := hw.get hl
    obtain ⟨b, hb, rfl⟩ := push_made ha hp
    exact hw.set hb h
  | concat self other =>
    obtain ⟨⟨h, w₁⟩, hrun, hs⟩ := bind_ok.mp hs
    obtain ⟨-, rfl⟩ := Prod.mk.inj (Except.ok.inj hs)
    obtain ⟨a, ha⟩ := raw_of_ok hw.held hrun
    obtain ⟨b, hb⟩ : ∃ b, w.lists[other]? = some b := by
      cases hb : w.lists[other]? with
      | some b => exact ⟨b, rfl⟩
      | none =>
        obtain ⟨s, herror⟩ := concat_error hw.held hb
        rw [herror] at hrun
        cases hrun
    rw [concat_eq hw.held ha hb] at hrun
    obtain ⟨r₁, h₁, hrun⟩ := bind_ok.mp hrun
    obtain ⟨r₂, h₂, hrun⟩ := bind_ok.mp hrun
    obtain ⟨-, rfl⟩ := Prod.mk.inj (Except.ok.inj hrun)
    obtain ⟨a', ha', rfl⟩ := hw.get ha
    obtain ⟨b', hb', rfl⟩ := hw.get hb
    obtain ⟨c, hc, rfl⟩ := extend_made .new ha' h₁
    obtain ⟨d, hd, rfl⟩ := extend_made hc hb' h₂
    refine ⟨hw.held, fun l hl => ?_⟩
    rcases List.mem_append.mp hl with hmem | hmem
    · exact hw.lists l hmem
    · obtain rfl := List.mem_singleton.mp hmem
      exact ⟨d, hd, rfl⟩
  | swap h i j =>
    obtain ⟨w₁, hrun, hs⟩ := bind_ok.mp hs
    obtain ⟨-, rfl⟩ := Prod.mk.inj (Except.ok.inj hs)
    obtain ⟨l, hl⟩ := raw_of_ok hw.held hrun
    rw [swap_eq hw.held hl] at hrun
    obtain rfl := Except.ok.inj hrun
    obtain ⟨a, ha, rfl⟩ := hw.get hl
    exact hw.set (.swapped ha) h
  | get h idx =>
    obtain ⟨⟨o, w₁⟩, hrun, hs⟩ := bind_ok.mp hs
    obtain ⟨-, rfl⟩ := Prod.mk.inj (Except.ok.inj hs)
    obtain ⟨l, hl⟩ := raw_of_ok hw.held hrun
    rw [get_eq hw.held hl] at hrun
    obtain ⟨-, rfl⟩ := Prod.mk.inj (Except.ok.inj hrun)
    exact hw
  | contains h item =>
    obtain ⟨⟨o, w₁⟩, hrun, hs⟩ := bind_ok.mp hs
    obtain ⟨-, rfl⟩ := Prod.mk.inj (Except.ok.inj hs)
    obtain ⟨l, hl⟩ := raw_of_ok hw.held hrun
    rw [contains_eq hw.held hl] at hrun
    obtain ⟨b, -, hrun⟩ := bind_ok.mp hrun
    obtain ⟨-, rfl⟩ := Prod.mk.inj (Except.ok.inj hrun)
    exact hw
  | index h item =>
    obtain ⟨⟨o, w₁⟩, hrun, hs⟩ := bind_ok.mp hs
    obtain ⟨-, rfl⟩ := Prod.mk.inj (Except.ok.inj hs)
    obtain ⟨l, hl⟩ := raw_of_ok hw.held hrun
    rw [index_eq hw.held hl] at hrun
    obtain ⟨b, -, hrun⟩ := bind_ok.mp hrun
    obtain ⟨-, rfl⟩ := Prod.mk.inj (Except.ok.inj hrun)
    exact hw
  | len h =>
    obtain ⟨⟨n, w₁⟩, hrun, hs⟩ := bind_ok.mp hs
    obtain ⟨-, rfl⟩ := Prod.mk.inj (Except.ok.inj hs)
    obtain ⟨l, hl⟩ := raw_of_ok hw.held hrun
    rw [len_eq hw.held hl] at hrun
    obtain ⟨-, rfl⟩ := Prod.mk.inj (Except.ok.inj hrun)
    exact hw

/-- The lists behind handles are reachable lists, of which only the calls are forgotten. -/
theorem reached_made (h : World.Reached build vt w) : World.Made build vt w := by
  induction h with
  | empty => exact ⟨rfl, fun _ hl => (nomatch hl)⟩
  | step _ hs ih => exact made_step ih hs

end

end Roto.Value
