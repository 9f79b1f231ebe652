import RotoCompiler.Value.ListEq

/-!
# Clone functions that panic (value/list.rs, extend and concat; value/vtable.rs)

The calls of a clone function are numbered, and each may panic or give bytes of its own. A log
keeps the clones that were made and the elements that were dropped, in order, so that elements
of size zero are told apart by their number. A clone function is `extern "C"`, and a panic that
reaches the end of such a function stops the process: nothing is unwound and no guard is run.
-/

namespace Roto.Value
open Lib RawList

/-- The functions of the v-table that are called on the way of a panic. -/
structure Glue (vt : VTable) where
  cloneFn : Option (ℕ → Bytes vt.size → Option (Bytes vt.size))
  hasDrop : Bool

structure Log (vt : VTable) where
  calls : ℕ
  made : List (Bytes vt.size)
  dropped : List (Bytes vt.size)

/-- How a call ends early: by a panic that unwinds, or with the process. -/
inductive Ended where
  | panic
  | abort
  deriving DecidableEq, Repr

namespace ClonePanics
variable {vt : VTable}

/-- `clone_fn` is called and panics. -/
def Log.called (log : Log vt) : Log vt := { log with calls := log.calls + 1 }

/-- `clone_fn` returns; the result is owned by the caller. -/
def Log.cloned (log : Log vt) (e : Bytes vt.size) : Log vt :=
  { calls := log.calls + 1, made := log.made ++ [e], dropped := log.dropped }

section
variable (build : Build) (g : Glue vt) (fresh : Memory)

/-- `Drop for RawList`. -/
def dropList (l : RawList) (log : Log vt) : Log vt :=
  if g.hasDrop then
    { log with
      dropped := log.dropped ++
        (List.range l.len).map fun i => l.mem.read vt.size (offsetOf vt i) }
  else log

/-- What the loops of `extend` change. -/
structure Cloning (vt : VTable) where
  mem : Memory
  log : Log vt

/-- The loops of `extend`, over the indices that are left; `false` for a panic of `clone_fn`. -/
def cloneElems (f : ℕ → Bytes vt.size → Option (Bytes vt.size)) (dst : ℕ → ℕ)
    (src : ℕ → Bytes vt.size) : List ℕ → Cloning vt → Bool × Cloning vt
  | [], c => (true, c)
  | i :: is, c =>
    match f c.log.calls (src i) with
    | none => (false, { c with log := Log.called c.log })
    | some e => cloneElems f dst src is ⟨c.mem.write (dst i) e, Log.cloned c.log e⟩

/-- `self.len += other.len`. -/
def addLen (l other : RawList) (log : Log vt) : Except Ended Unit × RawList × Log vt :=
  match build.usize (l.len + other.len) with
  | .ok len => (.ok (), { l with len := len }, log)
  | .error _ => (.error .panic, l, log)

/-- A loop of `extend` and what follows it. The `DropGuard` of the loop is forgotten at its end,
and a panic of `clone_fn` does not get to it. -/
def cloneAll (f : ℕ → Bytes vt.size → Option (Bytes vt.size)) (dst : ℕ → ℕ)
    (src : ℕ → Bytes vt.size) (l other : RawList) (log : Log vt) :
    Except Ended Unit × RawList × Log vt :=
  match cloneElems f dst src (List.range other.len) ⟨l.mem, log⟩ with
  | (true, c) => addLen build { l with mem := c.mem } other c.log
  | (false, c) => (.error .abort, { l with mem := c.mem }, c.log)

def extend (l other : RawList) (log : Log vt) : Except Ended Unit × RawList × Log vt :=
  if vt.size = 0 then
    match g.cloneFn with
    | some f => cloneAll build f (fun _ => 0) (fun _ => other.elem vt 0) l other log
    | none => addLen build l other log
  else if other.len = 0 then (.ok (), l, log)
  else
    match RawList.reserve build vt fresh l other.len with
    | .error _ => (.error .panic, l, log)
    | .ok l =>
      match g.cloneFn with
      | some f =>
        cloneAll build f (fun i => offsetOf vt (l.len + i)) (other.elem vt) l other log
      | none =>
        addLen build
          { l with mem := l.mem.copy (offsetOf vt l.len) other.mem (offsetOf vt other.len) }
          other log

end

/-- All lists behind handles; a mutex is poisoned when its guard is dropped by a panic. -/
structure Heap (vt : VTable) where
  lists : List RawList
  poisoned : List ℕ
  log : Log vt

/-- `lock().unwrap()`. -/
def Heap.lock (h : Heap vt) (handle : ℕ) : Option RawList :=
  if handle ∈ h.poisoned then none else h.lists[handle]?

section
variable (build : Build) (g : Glue vt) (fresh : Memory)

/-- A panic drops the locals of `concat`: the new list and the lock on `held`. -/
def Heap.unwind (h : Heap vt) (e : Ended) (held : Option ℕ) (raw : RawList) (log : Log vt) :
    Except Ended ℕ × Heap vt :=
  match e with
  | .abort => (.error .abort, { h with log := log })
  | .panic =>
    (.error .panic, { h with poisoned := held.toList ++ h.poisoned, log := dropList g raw log })

def concat (h : Heap vt) (self other : ℕ) : Except Ended ℕ × Heap vt :=
  match h.lock self with
  | none => (.error .panic, h)
  | some a =>
    match extend build g fresh (RawList.new vt) a h.log with
    | (.error e, raw, log) => h.unwind g e (some self) raw log
    | (.ok (), raw, log) =>
      match h.lock other with
      | none => h.unwind g .panic none raw log
      | some b =>
        match extend build g fresh raw b log with
        | (.error e, raw, log) => h.unwind g e (some other) raw log
        | (.ok (), raw, log) =>
          (.ok h.lists.length, { h with lists := h.lists ++ [raw], log := log })

/-- The last handles of all lists are dropped. -/
def Heap.dropAll (h : Heap vt) : Log vt := h.lists.foldl (fun log l => dropList g l log) h.log

end

/-- The elements of a list, as they are stored. -/
def stored (vt : VTable) (l : RawList) : List (Bytes vt.size) :=
  (List.range l.len).map (l.elem vt)

/-! ### Clone functions that do not panic -/

/-- The functions of the v-table, where `clone_fn` always returns. -/
def Glue.ofVTable (vt : VTable) (hasDrop : Bool) : Glue vt where
  cloneFn := vt.cloneFn.map fun f _ e => some (f e)
  hasDrop := hasDrop

theorem cloneElems_ofVTable (f : Bytes vt.size → Bytes vt.size) (l other : RawList) :
    ∀ (is : List ℕ) (c : Cloning vt),
      (cloneElems (fun _ e => some (f e)) (fun i => offsetOf vt (l.len + i)) (other.elem vt)
        is c).1 = true ∧
      (cloneElems (fun _ e => some (f e)) (fun i => offsetOf vt (l.len + i)) (other.elem vt)
        is c).2.mem = RawList.cloneElems vt f other l.len is c.mem := by
  intro is
  induction is with
  | nil =>
    intro c
    exact ⟨rfl, rfl⟩
  | cons i is ih =>
    intro c
    exact ih _

/-- Elements of size zero write nothing. -/
theorem write_of_size_zero (hs : vt.size = 0) (m : Memory) (off : ℕ) (e : Bytes vt.size) :
    m.write off e = m := by
  funext a
  unfold Memory.write
  rw [dif_neg (by omega)]

theorem cloneElems_zero (hs : vt.size = 0) (f : Bytes vt.size → Bytes vt.size)
    (e : Bytes vt.size) : ∀ (is : List ℕ) (c : Cloning vt),
      (cloneElems (fun _ e => some (f e)) (fun _ => 0) (fun _ => e) is c).1 = true ∧
      (cloneElems (fun _ e => some (f e)) (fun _ => 0) (fun _ => e) is c).2.mem = c.mem := by
  intro is
  induction is with
  | nil =>
    intro c
    exact ⟨rfl, rfl⟩
  | cons i is ih =>
    intro c
    obtain ⟨hended, hmem⟩ := ih ⟨c.mem.write 0 (f e), Log.cloned c.log (f e)⟩
    refine ⟨hended, ?_⟩
    show (cloneElems _ _ _ is ⟨c.mem.write 0 (f e), _⟩).2.mem = _
    rw [hmem, write_of_size_zero hs]

theorem cloneAll_of_ended {build : Build} {f : ℕ → Bytes vt.size → Option (Bytes vt.size)}
    {dst : ℕ → ℕ} {src : ℕ → Bytes vt.size} {l other : RawList} {log : Log vt}
    (h : (cloneElems f dst src (List.range other.len) ⟨l.mem, log⟩).1 = true) :
    cloneAll build f dst src l other log =
      addLen build
        { l with mem := (cloneElems f dst src (List.range other.len) ⟨l.mem, log⟩).2.mem }
        other (cloneElems f dst src (List.range other.len) ⟨l.mem, log⟩).2.log := by
  unfold cloneAll
  cases hc : cloneElems f dst src (List.range other.len) ⟨l.mem, log⟩ with
  | mk b c =>
    rw [hc] at h
    obtain rfl : b = true := h
    rfl

/-- The list that is left where a call returns. -/
def result : Except Ended Unit × RawList × Log vt → Option RawList
  | (.ok (), l, _) => some l
  | (.error _, _, _) => none

theorem result_addLen (build : Build) (l other : RawList) (log : Log vt) :
    result (addLen build l other log) =
      (do
        let len ← build.usize (l.len + other.len)
        return { l with len := len }).toOption := by
  unfold addLen
  cases build.usize (l.len + other.len) with
  | error e => rfl
  | ok len => rfl

/-- `extend` is that of the lists whose elements are cloned without a panic. -/
theorem extend_ofVTable (build : Build) (hasDrop : Bool) (fresh : Memory) (l other : RawList)
    (log : Log vt) :
    result (extend build (Glue.ofVTable vt hasDrop) fresh l other log) =
      (RawList.extend build vt fresh l other).toOption := by
  unfold extend RawList.extend Glue.ofVTable
  by_cases hs : vt.size = 0
  · simp only [hs, if_true]
    cases vt.cloneFn with
    | none => exact result_addLen build l other log
    | some f =>
      obtain ⟨hended, hmem⟩ :=
        cloneElems_zero hs f (other.elem vt 0) (List.range other.len) ⟨l.mem, log⟩
      show result (cloneAll build (fun _ e => some (f e)) _ _ l other log) = _
      rw [cloneAll_of_ended hended, result_addLen, hmem]
  simp only [hs, if_false]
  by_cases h0 : other.len = 0
  · simp only [h0, if_true]
    rfl
  simp only [h0, if_false]
  cases RawList.reserve build vt fresh l other.len with
  | error e => rfl
  | ok l₁ =>
    unfold copyElems
    cases vt.cloneFn with
    | none =>
      show result (addLen build _ other log) = _
      rw [result_addLen]
      rfl
    | some f =>
      obtain ⟨hended, hmem⟩ :=
        cloneElems_ofVTable f l₁ other (List.range other.len) ⟨l₁.mem, log⟩
      show result (cloneAll build (fun _ e => some (f e)) _ _ l₁ other log) = _
      rw [cloneAll_of_ended hended, result_addLen, hmem]
      rfl

/-! ### A panic in `extend` -/

section
variable {build : Build} {g : Glue vt} {fresh : Memory}
variable {f : ℕ → Bytes vt.size → Option (Bytes vt.size)} {dst : ℕ → ℕ}
  {src : ℕ → Bytes vt.size}

/-- What a function of the v-table that may be missing drops. -/
def Glue.drops (g : Glue vt) (es : List (Bytes vt.size)) : List (Bytes vt.size) :=
  if g.hasDrop then es else []

/-- The clone function panics while `extend` clones the element at the index `k`. -/
structure CloneFails (build : Build) (fresh : Memory)
    (f : ℕ → Bytes vt.size → Option (Bytes vt.size)) (l other : RawList) (log : Log vt)
    (k : ℕ) : Prop where
  reserved : vt.size ≠ 0 → ∃ l', RawList.reserve build vt fresh l other.len = .ok l'
  lt : k < other.len
  before : ∀ i < k, (f (log.calls + i) (other.elem vt i)).isSome
  fails : f (log.calls + k) (other.elem vt k) = none

/-- What is left of a list `l` when its extension has panicked after `k` clones. -/
structure ExtendSafe (g : Glue vt) (l : RawList) (log : Log vt) (k : ℕ)
    (r : Except Ended Unit × RawList × Log vt) : Prop where
  ended : r.1 = .error .panic
  len_eq : r.2.1.len = l.len
  stored_eq : stored vt r.2.1 = stored vt l
  dropped : ∃ es, es.length = k ∧ r.2.2.made = log.made ++ es ∧
    r.2.2.dropped = log.dropped ++ Glue.drops g es

/-- The process has ended after `k` more clones, none of which is dropped. -/
structure Lost {α : Type} (log : Log vt) (k : ℕ) (ended : Except Ended α) (log' : Log vt) :
    Prop where
  ended : ended = .error .abort
  made : ∃ es, es.length = k ∧ log'.made = log.made ++ es
  dropped : log'.dropped = log.dropped

/-- A panic at the index `k` comes after `k` clones. -/
theorem cloneElems_fails (n : ℕ) : ∀ (s : ℕ) (c : Cloning vt) (k : ℕ), k < n →
    (∀ i < k, (f (c.log.calls + i) (src (s + i))).isSome) →
    f (c.log.calls + k) (src (s + k)) = none →
    (cloneElems f dst src (List.range' s n) c).1 = false ∧
      (∃ es, es.length = k ∧
        (cloneElems f dst src (List.range' s n) c).2.log.made = c.log.made ++ es) ∧
      (cloneElems f dst src (List.range' s n) c).2.log.dropped = c.log.dropped := by
  induction n with
  | zero =>
    intro s c k hk
    exact absurd hk (Nat.not_lt_zero k)
  | succ n ih =>
    intro s c k hk hbefore hfails
    rw [List.range'_succ, cloneElems]
    cases k with
    | zero =>
      have hnone : f c.log.calls (src s) = none := hfails
      rw [hnone]
      exact ⟨rfl, ⟨[], rfl, (List.append_nil _).symm⟩, rfl⟩
    | succ k =>
      have hsome := hbefore 0 (Nat.succ_pos k)
      obtain ⟨e, he⟩ := Option.isSome_iff_exists.mp hsome
      have he' : f c.log.calls (src s) = some e := he
      rw [he']
      have hcalls : ∀ i, c.log.calls + (i + 1) = c.log.calls + 1 + i := by
        intro i
        omega
      have hidx : ∀ i, s + (i + 1) = s + 1 + i := by
        intro i
        omega
      have hrest := ih (s + 1) ⟨c.mem.write (dst s) e, Log.cloned c.log e⟩ k (by omega) ?_ ?_
      · obtain ⟨hended, ⟨es, hlen, hmade⟩, hdropped⟩ := hrest
        refine ⟨hended, ⟨e :: es, by rw [List.length_cons, hlen], ?_⟩, hdropped⟩
        rw [hmade]
        simp [Log.cloned]
      · intro i hi
        have h := hbefore (i + 1) (by omega)
        rw [hcalls, hidx] at h
        exact h
      · rw [hcalls, hidx] at hfails
        exact hfails

theorem cloneAll_lost {l other : RawList} {log : Log vt} {k : ℕ} (hlt : k < other.len)
    (hbefore : ∀ i < k, (f (log.calls + i) (src i)).isSome)
    (hfails : f (log.calls + k) (src k) = none) :
    Lost log k (cloneAll build f dst src l other log).1
      (cloneAll build f dst src l other log).2.2 := by
  have hrange : List.range other.len = List.range' 0 other.len := List.range_eq_range'
  obtain ⟨hpanic, hmade, hdropped⟩ := @cloneElems_fails vt f dst src other.len 0 ⟨l.mem, log⟩ k
    hlt (by simpa using hbefore) (by simpa using hfails)
  rw [← hrange] at hpanic hmade hdropped
  unfold cloneAll
  cases hc : cloneElems f dst src (List.range other.len) ⟨l.mem, log⟩ with
  | mk b c =>
    rw [hc] at hpanic hmade hdropped
    obtain rfl : b = false := hpanic
    exact ⟨rfl, hmade, hdropped⟩

theorem extend_lost (hf : g.cloneFn = some f) {l other : RawList} {log : Log vt} {k : ℕ}
    (hfail : CloneFails build fresh f l other log k) :
    Lost log k (extend build g fresh l other log).1 (extend build g fresh l other log).2.2 := by
  have hlt := hfail.lt
  unfold extend
  by_cases hs : vt.size = 0
  · rw [if_pos hs, hf]
    apply cloneAll_lost hlt
    · intro i hi
      rw [elem_of_size_zero hs other other 0 i]
      exact hfail.before i hi
    · rw [elem_of_size_zero hs other other 0 k]
      exact hfail.fails
  · have h0 : other.len ≠ 0 := by omega
    rw [if_neg hs, if_neg h0, hf]
    obtain ⟨l₁, h₁⟩ := hfail.reserved hs
    rw [h₁]
    exact cloneAll_lost hlt hfail.before hfail.fails

/-! ### A panic in `concat` -/

/-- The clone function panics in one of the two extensions of `concat`, at the index `k`. `log`
is the log before this extension. -/
inductive ConcatFails (build : Build) (g : Glue vt) (fresh : Memory)
    (f : ℕ → Bytes vt.size → Option (Bytes vt.size)) (h : Heap vt) (self other : ℕ) :
    Log vt → ℕ → Prop
  | first {a : RawList} {k : ℕ} (ha : h.lock self = some a)
      (hfail : CloneFails build fresh f (RawList.new vt) a h.log k) :
      ConcatFails build g fresh f h self other h.log k
  | second {a b raw : RawList} {log : Log vt} {k : ℕ} (ha : h.lock self = some a)
      (he : extend build g fresh (RawList.new vt) a h.log = (.ok (), raw, log))
      (hb : h.lock other = some b) (hfail : CloneFails build fresh f raw b log k) :
      ConcatFails build g fresh f h self other log k

/-- What is left when `concat` has panicked, and what is dropped when all lists are. -/
structure ConcatSafe (g : Glue vt) (h : Heap vt) (r : Except Ended ℕ × Heap vt) : Prop where
  ended : r.1 = .error .panic
  lists_eq : r.2.lists = h.lists
  dropped : ∃ es, r.2.log.made = h.log.made ++ es ∧
    r.2.log.dropped.Perm (h.log.dropped ++ Glue.drops g es)
  later : (r.2.dropAll g).dropped = r.2.log.dropped ++ Glue.drops g (h.lists.flatMap (stored vt))

theorem concat_lost (hf : g.cloneFn = some f) {h : Heap vt} {self other : ℕ} {log : Log vt}
    {k : ℕ} (hfail : ConcatFails build g fresh f h self other log k) :
    Lost log k (concat build g fresh h self other).1 (concat build g fresh h self other).2.log := by
  cases hfail with
  | @first a k ha hfail =>
    obtain ⟨hended, hmade, hdropped⟩ := extend_lost (g := g) hf hfail
    unfold concat
    cases hx : extend build g fresh (RawList.new vt) a h.log with
    | mk ended rest =>
      rw [hx] at hended hmade hdropped
      obtain rfl : ended = .error .abort := hended
      simp only [ha, hx, Heap.unwind]
      exact ⟨rfl, hmade, hdropped⟩
  | @second a b l log k ha he hb hfail =>
    obtain ⟨hended, hmade, hdropped⟩ := extend_lost (g := g) hf hfail
    unfold concat
    cases hx : extend build g fresh l b log with
    | mk ended rest =>
      rw [hx] at hended hmade hdropped
      obtain rfl : ended = .error .abort := hended
      simp only [ha, he, hb, hx, Heap.unwind]
      exact ⟨rfl, hmade, hdropped⟩

/-- A panic of the clone function at any position of an extension, and of either extension of
`concat`, stops the process, and the clones that were made are not dropped. -/
theorem clone_panics_never_safe (build : Build) {vt : VTable} (g : Glue vt) (fresh : Memory)
    (f : ℕ → Bytes vt.size → Option (Bytes vt.size)) (hf : g.cloneFn = some f) :
    (∀ (l other : RawList) (log : Log vt) (k : ℕ), CloneFails build fresh f l other log k →
      Lost log k (extend build g fresh l other log).1 (extend build g fresh l other log).2.2 ∧
        ¬ ExtendSafe g l log k (extend build g fresh l other log)) ∧
    ∀ (h : Heap vt) (self other : ℕ) (log : Log vt) (k : ℕ),
      ConcatFails build g fresh f h self other log k →
      Lost log k (concat build g fresh h self other).1 (concat build g fresh h self other).2.log ∧
        ¬ ConcatSafe g h (concat build g fresh h self other) := by
  constructor
  · intro l other log k hfail
    have hlost := extend_lost (g := g) hf hfail
    refine ⟨hlost, fun hsafe => ?_⟩
    have hended := hsafe.ended
    rw [hlost.ended] at hended
    cases hended
  · intro h self other log k hfail
    have hlost := concat_lost hf hfail
    refine ⟨hlost, fun hsafe => ?_⟩
    have hended := hsafe.ended
    rw [hlost.ended] at hended
    cases hended

/-- Units whose clone function panics at the call `n`. -/
def unitGlue (n : ℕ) : Glue unitVTable where
  cloneFn := some fun call e => if call < n then some e else none
  hasDrop := true

/-- Two lists of units, with so many elements. -/
def unitHeap (m n : ℕ) : Heap unitVTable where
  lists := [{ RawList.new unitVTable with len := m }, { RawList.new unitVTable with len := n }]
  poisoned := []
  log := ⟨0, [], []⟩

/-- A unit and two more, where the third clone panics. -/
theorem concatFails_units : ConcatFails release (unitGlue 2) (fun _ => 0)
    (fun call e => if call < 2 then some e else none) (unitHeap 1 2) 0 1
    ⟨1, [RawList.elem unitVTable (RawList.new unitVTable) 0], []⟩ 1 := by
  refine .second rfl rfl rfl ⟨fun hs => absurd rfl hs, by decide, ?_, rfl⟩
  intro i hi
  obtain rfl : i = 0 := by omega
  rfl

theorem clone_panics_units :
    ¬ ConcatSafe (unitGlue 2) (unitHeap 1 2)
      (concat release (unitGlue 2) (fun _ => 0) (unitHeap 1 2) 0 1) :=
  ((clone_panics_never_safe release (unitGlue 2) (fun _ => 0) _ rfl).2 (unitHeap 1 2) 0 1 _ 1
    concatFails_units).2

/-- Bytes whose clone function panics at the call `n`. -/
def byteGlue (n : ℕ) : Glue byteVTable where
  cloneFn := some fun call e => if call < n then some e else none
  hasDrop := true

/-- The lists `[0]` and `[1, 1]`. -/
def byteHeap : Heap byteVTable where
  lists := [⟨fun _ => 0, 1, 4⟩, ⟨fun _ => 1, 2, 4⟩]
  poisoned := []
  log := ⟨0, [], []⟩

/-- The third clone panics. -/
theorem third_byte_not_safe :
    (∃ log, ConcatFails release (byteGlue 2) (fun _ => 0)
      (fun call e => if call < 2 then some e else none) byteHeap 0 1 log 1) ∧
    ¬ ConcatSafe (byteGlue 2) byteHeap
      (concat release (byteGlue 2) (fun _ => 0) byteHeap 0 1) := by
  constructor
  · refine ⟨_, .second rfl rfl rfl ⟨fun _ => ⟨_, rfl⟩, by decide, fun i hi => ?_, rfl⟩⟩
    obtain rfl : i = 0 := by omega
    rfl
  · intro hsafe
    have hended : (concat release (byteGlue 2) (fun _ => 0) byteHeap 0 1).1 = .error .abort := rfl
    rw [hsafe.ended] at hended
    cases hended

end

end ClonePanics

end Roto.Value
