import RotoCompiler.Value.Allocation
import Mathlib.Data.List.Induction

/-!
# Getting an element while others use the list (value/list.rs, list_get)

`list_get` takes the lock of the list twice, to find the element and to clone it through the
pointer that it found. What other handles of the list do with the lock comes in between in
any order.
-/

namespace Roto.Value.ListGet
open Lib RawList

/-- What `push`, `swap` and `concat` on other handles do while they hold the lock. `concat`
holds it while it extends a new list by this one, and a `clone_fn` may panic then. -/
inductive Section (vt : VTable) where
  | push (fresh : Memory) (e : Bytes vt.size)
  | swap (i j : ℕ)
  | concat (fresh : Memory) (raw : RawList) (clonePanics : Bool)

inductive Act (vt : VTable) where
  | other (sec : Section vt)
  /-- `this.get(idx)`. -/
  | find
  /-- The part of `list_get` after its own `lock`. -/
  | clone (clonePanics : Bool)

/-- A pointer into the allocation that a list has after a number of calls of the allocator. -/
structure Pointer where
  calls : ℕ
  offset : ℕ
  deriving DecidableEq

/-- How far the call of `list_get` is; `dangling` has read through a pointer into an
allocation that has been replaced. -/
inductive Call (vt : VTable) where
  | waiting
  | holding (src : Pointer)
  | returned (out : Option (Bytes vt.size))
  | dangling
  | panicked

structure Shared (vt : VTable) where
  list : AllocatedList
  poisoned : Bool
  call : Call vt

section
variable (build : Build) (vt : VTable) (idx : ℕ)

/-- The list after a section, or a panic with the lock held. -/
def Section.run (l : AllocatedList) : Section vt → Option AllocatedList
  | .push fresh e => (l.push build vt fresh e).toOption
  | .swap i j => some (l.swap vt i j)
  | .concat fresh raw clonePanics =>
    if clonePanics then none
    else (raw.extend build vt fresh l.toRawList).toOption.map fun _ => l

/-- What is written to `out`. -/
def cloned (e : Bytes vt.size) : Bytes vt.size :=
  match vt.cloneFn with
  | some f => f e
  | none => e

/-- `lock().unwrap()` panics in every thread once the mutex is poisoned. A clone function is
an `extern "C"` function, so its panic ends the process: the steps that follow one here are
more than the program has, and none of them reads or returns an element. -/
def step (s : Shared vt) : Act vt → Option (Shared vt)
  | .other sec =>
    if s.poisoned then some s
    else match sec.run build vt s.list with
      | some l => some { s with list := l }
      | none => some { s with poisoned := true }
  | .find =>
    match s.call with
    | .waiting =>
      if s.poisoned then some { s with call := .panicked }
      else match s.list.get vt idx with
        | some offset => some { s with call := .holding ⟨s.list.calls.length, offset⟩ }
        | none => some { s with call := .returned none }
    | _ => none
  | .clone clonePanics =>
    match s.call with
    | .holding src =>
      if s.poisoned then some { s with call := .panicked }
      else if src.calls ≠ s.list.calls.length then some { s with call := .dangling }
      else if clonePanics then some { s with poisoned := true, call := .panicked }
      else some { s with
        call := .returned (some (cloned vt (s.list.mem.read vt.size src.offset))) }
    | _ => none

def run (s : Shared vt) : List (Act vt) → Option (Shared vt)
  | [] => some s
  | a :: as => (step build vt idx s a).bind fun s => run s as

/-- The list before the call. -/
def start (l : AllocatedList) : Shared vt := ⟨l, false, .waiting⟩

/-- The call holds its pointer, between its two sections. -/
def Shared.Between {vt : VTable} (s : Shared vt) : Prop := ∃ src, s.call = .holding src

/-- After the steps no pointer into a replaced allocation has been read, and what has been
returned is a clone of the element that was at the index at a moment between the two
sections. -/
structure Atomic (l : AllocatedList) (as : List (Act vt)) : Prop where
  valid : ∀ s, run build vt idx (start vt l) as = some s → s.call ≠ .dangling
  element : ∀ s v, run build vt idx (start vt l) as = some s → s.call = .returned (some v) →
    ∃ xs, xs <+: as ∧ ∃ m, run build vt idx (start vt l) xs = some m ∧ m.Between ∧
      idx < m.list.len ∧ v = cloned vt (m.list.elem vt idx)

/-- The section is a push that calls the allocator. -/
def Reallocates (s : Shared vt) : Section vt → Prop
  | .push fresh e => s.poisoned = false ∧
    ∃ l', s.list.push build vt fresh e = .ok l' ∧ l'.calls.length ≠ s.list.calls.length
  | _ => False

/-- No push has reallocated since the call found its element. -/
def Undisturbed (l : AllocatedList) (as : List (Act vt)) : Prop :=
  ∀ xs sec, xs ++ [.other sec] <+: as → ∀ s, run build vt idx (start vt l) xs = some s →
    s.Between → ¬ Reallocates build vt s sec

/-- The next step of the call clones the element. -/
def Reads (l : AllocatedList) (as : List (Act vt)) : Prop :=
  ∃ s, run build vt idx (start vt l) as = some s ∧ s.poisoned = false ∧ s.Between

end

/-! ### One step -/

section
variable {build : Build} {vt : VTable} {idx : ℕ} {l l' : AllocatedList} {s s' : Shared vt}
  {as : List (Act vt)}

theorem reserve_keeps {fresh : Memory} {n : ℕ} (hr : l.reserve build vt fresh n = .ok l') :
    l'.len = l.len ∧ l.calls.length ≤ l'.calls.length := by
  by_cases hs : vt.size = 0
  · simp only [AllocatedList.reserve, hs, if_true] at hr
    have hl := Except.ok.inj hr
    exact hl ▸ ⟨rfl, le_rfl⟩
  simp only [AllocatedList.reserve, hs, if_false] at hr
  obtain ⟨required, -, hr⟩ := bind_ok.mp hr
  obtain ⟨c, -, hr⟩ := bind_ok.mp hr
  split at hr
  · unfold AllocatedList.grow at hr
    split at hr
    · obtain ⟨newSize, -, hr⟩ := bind_ok.mp hr
      have hl := Except.ok.inj hr
      rw [← hl]
      exact ⟨rfl, by simp⟩
    · obtain ⟨oldSize, -, hr⟩ := bind_ok.mp hr
      obtain ⟨newSize, -, hr⟩ := bind_ok.mp hr
      have hl := Except.ok.inj hr
      rw [← hl]
      exact ⟨rfl, by simp⟩
  · have hl := Except.ok.inj hr
    exact hl ▸ ⟨rfl, le_rfl⟩

/-- A push leaves no shorter list, unless its elements have no bytes and the length wraps. -/
theorem push_keeps {fresh : Memory} {e : Bytes vt.size} (hp : l.push build vt fresh e = .ok l') :
    (vt.size ≠ 0 → l.len ≤ l'.len) ∧ l.calls.length ≤ l'.calls.length := by
  by_cases hs : vt.size = 0
  · have hz : ¬ vt.size > 0 := by omega
    simp only [AllocatedList.push, hz, if_false] at hp
    obtain ⟨l₁, h₁, hp⟩ := bind_ok.mp hp
    have hl₁ := Except.ok.inj h₁
    obtain ⟨len, -, hp⟩ := bind_ok.mp hp
    have hl := Except.ok.inj hp
    rw [← hl, ← hl₁]
    exact ⟨fun h => absurd hs h, le_rfl⟩
  · have hpos : vt.size > 0 := by omega
    simp only [AllocatedList.push, hpos, if_true] at hp
    obtain ⟨l₁, h₁, hp⟩ := bind_ok.mp hp
    obtain ⟨l₂, h₂, h₁⟩ := bind_ok.mp h₁
    have hl₁ := Except.ok.inj h₁
    obtain ⟨len, hlen, hp⟩ := bind_ok.mp hp
    have hl := Except.ok.inj hp
    have hkeeps := reserve_keeps h₂
    have hraw : RawList.reserve build vt fresh l.toRawList 1 = .ok l₂.toRawList := by
      rw [← reserve_toRawList, h₂]
      rfl
    have hlt := reserve_lt hs hraw
    rw [← hl₁] at hlen
    have hone : len = l₂.len + 1 := usize_eq hlen (by rw [hkeeps.1]; exact hlt)
    rw [← hl, ← hl₁]
    show (vt.size ≠ 0 → l.len ≤ len) ∧ l.calls.length ≤ l₂.calls.length
    exact ⟨fun _ => by omega, hkeeps.2⟩

/-- A section of another handle does not touch the call, and leaves the allocation alone
unless it is a push that reallocates. -/
theorem step_other {sec : Section vt} (h : step build vt idx s (.other sec) = some s') :
    s'.call = s.call ∧ (vt.size ≠ 0 → s.list.len ≤ s'.list.len) ∧
      s.list.calls.length ≤ s'.list.calls.length ∧
      (s'.list.calls.length = s.list.calls.length ↔ ¬ Reallocates build vt s sec) := by
  have hsame : ¬ Reallocates build vt s sec → s'.list = s.list ∧ s'.call = s.call →
      s'.call = s.call ∧ (vt.size ≠ 0 → s.list.len ≤ s'.list.len) ∧
        s.list.calls.length ≤ s'.list.calls.length ∧
        (s'.list.calls.length = s.list.calls.length ↔ ¬ Reallocates build vt s sec) := by
    intro hnot heq
    rw [heq.1]
    exact ⟨heq.2, fun _ => le_rfl, le_rfl, fun _ => hnot, fun _ => rfl⟩
  simp only [step] at h
  by_cases hpoisoned : s.poisoned = true
  · rw [if_pos hpoisoned] at h
    have hs := Option.some.inj h
    apply hsame
    · intro hre
      cases sec with
      | push fresh e => simp [Reallocates, hpoisoned] at hre
      | swap i j => exact hre
      | concat fresh raw clonePanics => exact hre
    · rw [hs]
      exact ⟨rfl, rfl⟩
  rw [if_neg hpoisoned] at h
  cases sec with
  | push fresh e =>
    cases hp : s.list.push build vt fresh e with
    | error stop =>
      simp only [Section.run, hp, Except.toOption] at h
      have hs := Option.some.inj h
      apply hsame
      · rintro ⟨-, l', hl', -⟩
        rw [hp] at hl'
        cases hl'
      · rw [← hs]
        exact ⟨rfl, rfl⟩
    | ok l' =>
      simp only [Section.run, hp, Except.toOption] at h
      have hs := Option.some.inj h
      have hkeeps := push_keeps hp
      rw [← hs]
      refine ⟨rfl, hkeeps.1, hkeeps.2, fun heq hre => ?_, fun hnot => ?_⟩
      · obtain ⟨-, l₁, hl₁, hne⟩ := hre
        rw [hp] at hl₁
        have hl := Except.ok.inj hl₁
        exact hne (hl ▸ heq)
      · by_contra hne
        exact hnot ⟨by simpa using hpoisoned, l', hp, hne⟩
  | swap i j =>
    simp only [Section.run] at h
    have hs := Option.some.inj h
    rw [← hs]
    refine ⟨rfl, fun _ => ?_, le_rfl, fun _ hre => hre, fun _ => rfl⟩
    show s.list.len ≤ (s.list.toRawList.swap vt i j).len
    rw [swap_len]
  | concat fresh raw clonePanics =>
    apply hsame (fun hre => hre)
    cases hrun : (Section.concat fresh raw clonePanics).run build vt s.list with
    | none =>
      simp only [hrun] at h
      have hs := Option.some.inj h
      rw [← hs]
      exact ⟨rfl, rfl⟩
    | some l' =>
      simp only [hrun] at h
      have hs := Option.some.inj h
      have hl' : l' = s.list := by
        simp only [Section.run] at hrun
        split at hrun
        · cases hrun
        · obtain ⟨raw', -, hraw⟩ := Option.map_eq_some_iff.mp hrun
          exact hraw.symm
      rw [← hs, hl']
      exact ⟨rfl, rfl⟩

/-- The first section of the call. -/
theorem step_find (h : step build vt idx s .find = some s') :
    s.call = .waiting ∧ s'.list = s.list ∧
      (s'.call = .panicked ∨ s'.call = .returned none ∨
        s'.call = .holding ⟨s.list.calls.length, offsetOf vt idx⟩ ∧ idx < s.list.len) := by
  simp only [step] at h
  cases hc : s.call with
  | waiting =>
    simp only [hc] at h
    refine ⟨rfl, ?_⟩
    split at h
    · have hs := Option.some.inj h
      rw [← hs]
      exact ⟨rfl, .inl rfl⟩
    · by_cases hlt : idx < s.list.len
      · have hget : s.list.toRawList.get vt idx = some (offsetOf vt idx) := by
          rw [RawList.get, if_neg (by omega)]
        simp only [hget] at h
        have hs := Option.some.inj h
        rw [← hs]
        exact ⟨rfl, .inr (.inr ⟨rfl, hlt⟩)⟩
      · have hget : s.list.toRawList.get vt idx = none := by
          rw [RawList.get, if_pos (by omega)]
        simp only [hget] at h
        have hs := Option.some.inj h
        rw [← hs]
        exact ⟨rfl, .inr (.inl rfl)⟩
  | holding src => simp [hc] at h
  | returned out => simp [hc] at h
  | dangling => simp [hc] at h
  | panicked => simp [hc] at h

/-- The second section of the call. -/
theorem step_clone {clonePanics : Bool} (h : step build vt idx s (.clone clonePanics) = some s') :
    ∃ src, s.call = .holding src ∧
      (s.poisoned = true ∧ s'.call = .panicked ∨
        s.poisoned = false ∧ src.calls ≠ s.list.calls.length ∧ s'.call = .dangling ∨
        s.poisoned = false ∧ src.calls = s.list.calls.length ∧
          (s'.call = .panicked ∨
            s'.call = .returned (some (cloned vt (s.list.mem.read vt.size src.offset))))) := by
  simp only [step] at h
  cases hc : s.call with
  | holding src =>
    refine ⟨src, rfl, ?_⟩
    simp only [hc] at h
    cases hpoisoned : s.poisoned with
    | true =>
      simp only [hpoisoned, if_true] at h
      rw [← Option.some.inj h]
      exact .inl ⟨rfl, rfl⟩
    | false =>
      simp only [hpoisoned, Bool.false_eq_true, if_false] at h
      by_cases heq : src.calls = s.list.calls.length
      · simp only [heq, ne_eq, not_true_eq_false, if_false] at h
        refine .inr (.inr ⟨rfl, heq, ?_⟩)
        split at h
        · rw [← Option.some.inj h]
          exact .inl rfl
        · rw [← Option.some.inj h]
          exact .inr rfl
      · simp only [heq, ne_eq, not_false_eq_true, if_true] at h
        rw [← Option.some.inj h]
        exact .inr (.inl ⟨rfl, heq, rfl⟩)
  | waiting => simp [hc] at h
  | returned out => simp [hc] at h
  | dangling => simp [hc] at h
  | panicked => simp [hc] at h

/-! ### Runs -/

theorem run_append (as bs : List (Act vt)) :
    run build vt idx s (as ++ bs) = (run build vt idx s as).bind fun s => run build vt idx s bs := by
  induction as generalizing s with
  | nil => rfl
  | cons a as ih =>
    rw [List.cons_append, run, run]
    cases step build vt idx s a with
    | none => rfl
    | some s₁ => exact ih

theorem run_concat {a : Act vt} (h : run build vt idx s (as ++ [a]) = some s') :
    ∃ m, run build vt idx s as = some m ∧ step build vt idx m a = some s' := by
  rw [run_append] at h
  obtain ⟨m, hm, hrun⟩ := Option.bind_eq_some_iff.mp h
  obtain ⟨t, ht, hnil⟩ := Option.bind_eq_some_iff.mp hrun
  have hs := Option.some.inj hnil
  exact ⟨m, hm, hs ▸ ht⟩

theorem undisturbed_nil : Undisturbed build vt idx l [] := by
  intro xs sec hxs
  have hlen := hxs.length_le
  simp at hlen

theorem undisturbed_concat (a : Act vt) : Undisturbed build vt idx l (as ++ [a]) ↔
    Undisturbed build vt idx l as ∧ ∀ sec, a = .other sec → ∀ s,
      run build vt idx (start vt l) as = some s → s.Between → ¬ Reallocates build vt s sec := by
  constructor
  · intro h
    refine ⟨fun xs sec hxs => h xs sec (hxs.trans (List.prefix_append ..)), ?_⟩
    intro sec ha
    subst ha
    exact h as sec List.prefix_rfl
  · rintro ⟨has, hlast⟩ xs sec hxs
    rcases List.prefix_concat_iff.mp hxs with heq | hpre
    · obtain ⟨hxsas, hsec⟩ := List.append_inj' heq rfl
      have ha : a = .other sec := (List.cons.inj hsec).1.symm
      rw [hxsas]
      exact hlast sec ha
    · exact has xs sec hpre

/-- While the call holds its pointer, that is the place of the element in the allocation of
the list as long as no push reallocates. -/
structure Held (build : Build) (idx : ℕ) (l : AllocatedList) (as : List (Act vt)) (s : Shared vt)
    (src : Pointer) : Prop where
  offset : src.offset = offsetOf vt idx
  len : vt.size ≠ 0 → idx < s.list.len
  calls_le : src.calls ≤ s.list.calls.length
  calls_eq : src.calls = s.list.calls.length ↔ Undisturbed build vt idx l as
  found : ∃ xs, xs <+: as ∧ ∃ m, run build vt idx (start vt l) xs = some m ∧ m.Between ∧
    idx < m.list.len

/-- What holds of the state after the steps. -/
structure Invariant (build : Build) (idx : ℕ) (l : AllocatedList) (as : List (Act vt))
    (s : Shared vt) : Prop where
  waiting : s.call = .waiting → Undisturbed build vt idx l as
  holding : ∀ src, s.call = .holding src → Held build idx l as s src

theorem invariant_other {sec : Section vt} (hrun : run build vt idx (start vt l) as = some s)
    (hs : step build vt idx s (.other sec) = some s') (h : Invariant build idx l as s) :
    Invariant build idx l (as ++ [.other sec]) s' := by
  obtain ⟨hcall, hlen, hcalls, hsame⟩ := step_other hs
  have hlast : Undisturbed build vt idx l (as ++ [.other sec]) ↔
      Undisturbed build vt idx l as ∧ (s.Between → ¬ Reallocates build vt s sec) := by
    rw [undisturbed_concat]
    refine and_congr_right fun _ => ⟨fun hsec => hsec sec rfl s hrun, fun hsec => ?_⟩
    intro sec' heq s₁ hs₁
    obtain rfl := Act.other.inj heq
    obtain rfl := Option.some.inj (hrun.symm.trans hs₁)
    exact hsec
  constructor
  · intro hw
    rw [hcall] at hw
    refine hlast.mpr ⟨h.waiting hw, ?_⟩
    rintro ⟨src, hsrc⟩
    rw [hw] at hsrc
    cases hsrc
  · intro src hsrc
    rw [hcall] at hsrc
    have hheld := h.holding src hsrc
    refine ⟨hheld.offset, fun hsize => lt_of_lt_of_le (hheld.len hsize) (hlen hsize),
      hheld.calls_le.trans hcalls, ?_, ?_⟩
    · rw [hlast, ← hheld.calls_eq]
      have hle := hheld.calls_le
      constructor
      · intro heq
        exact ⟨by omega, fun _ => hsame.mp (by omega)⟩
      · rintro ⟨heq, hnot⟩
        have hsec := hsame.mpr (hnot ⟨src, hsrc⟩)
        omega
    · obtain ⟨xs, hxs, hm⟩ := hheld.found
      exact ⟨xs, hxs.trans (List.prefix_append ..), hm⟩

theorem invariant_find (hrun : run build vt idx (start vt l) as = some s)
    (hs : step build vt idx s .find = some s') (h : Invariant build idx l as s) :
    Invariant build idx l (as ++ [.find]) s' := by
  obtain ⟨hw, hlist, hcases⟩ := step_find hs
  have hundisturbed : Undisturbed build vt idx l (as ++ [.find]) :=
    (undisturbed_concat _).mpr ⟨h.waiting hw, fun sec heq => (nomatch heq)⟩
  have hrun' : run build vt idx (start vt l) (as ++ [.find]) = some s' := by
    rw [run_append, hrun]
    show (step build vt idx s .find).bind (fun s => run build vt idx s []) = some s'
    rw [hs]
    rfl
  refine ⟨fun _ => hundisturbed, fun src hsrc => ?_⟩
  rcases hcases with hc | hc | ⟨hc, hlt⟩
  · rw [hc] at hsrc
    cases hsrc
  · rw [hc] at hsrc
    cases hsrc
  · rw [hc] at hsrc
    obtain rfl := Call.holding.inj hsrc
    rw [← hlist] at hlt hc
    refine ⟨rfl, fun _ => hlt, by rw [hlist], ⟨fun _ => hundisturbed, fun _ => by rw [hlist]⟩, ?_⟩
    exact ⟨as ++ [.find], List.prefix_rfl, s', hrun', ⟨_, hc⟩, hlt⟩

theorem invariant_clone {clonePanics : Bool}
    (hs : step build vt idx s (.clone clonePanics) = some s') :
    Invariant build idx l (as ++ [.clone clonePanics]) s' := by
  obtain ⟨src, -, hcases⟩ := step_clone hs
  have hdone : s'.call = .panicked ∨ s'.call = .dangling ∨ ∃ out, s'.call = .returned out := by
    rcases hcases with ⟨-, hc⟩ | ⟨-, -, hc⟩ | ⟨-, -, hc | hc⟩
    · exact .inl hc
    · exact .inr (.inl hc)
    · exact .inl hc
    · exact .inr (.inr ⟨_, hc⟩)
  constructor
  · intro hw
    rcases hdone with hc | hc | ⟨out, hc⟩
    all_goals
      rw [hc] at hw
      cases hw
  · intro src' hsrc
    rcases hdone with hc | hc | ⟨out, hc⟩
    all_goals
      rw [hc] at hsrc
      cases hsrc

/-- The invariant holds after every run. -/
theorem run_invariant (as : List (Act vt)) : ∀ s, run build vt idx (start vt l) as = some s →
    Invariant build idx l as s := by
  induction as using List.reverseRecOn with
  | nil =>
    intro s hs
    obtain rfl := Option.some.inj hs
    exact ⟨fun _ => undisturbed_nil, fun src hsrc => (nomatch hsrc)⟩
  | append_singleton as a ih =>
    intro s' hs'
    obtain ⟨s, hs, hstep⟩ := run_concat hs'
    cases a with
    | other sec => exact invariant_other hs hstep (ih s hs)
    | find => exact invariant_find hs hstep (ih s hs)
    | clone clonePanics => exact invariant_clone hstep

/-! ### The answer of the call -/

/-- The call gets an answer only in its second section, from the place it has found. -/
theorem step_answer {a : Act vt} (h : step build vt idx s a = some s')
    (hs' : s'.call = .dangling ∨ ∃ v, s'.call = .returned (some v)) :
    s'.call = s.call ∨ ∃ clonePanics, a = .clone clonePanics := by
  cases a with
  | other sec => exact .inl (step_other h).1
  | clone clonePanics => exact .inr ⟨clonePanics, rfl⟩
  | find =>
    obtain ⟨-, -, hc | hc | ⟨hc, -⟩⟩ := step_find h
    all_goals
      rw [hc] at hs'
      rcases hs' with hd | ⟨v, hv⟩
      · cases hd
      · cases hv

theorem atomic_nil : Atomic build vt idx l [] := by
  constructor
  · intro s hs hc
    obtain rfl := Option.some.inj hs
    cases hc
  · intro s v hs hc
    obtain rfl := Option.some.inj hs
    cases hc

/-- One more step keeps the call atomic, unless it clones in a disturbed run. -/
theorem atomic_concat {a : Act vt} (h : Atomic build vt idx l as)
    (ha : ∀ clonePanics, a = .clone clonePanics → Reads build vt idx l as →
      Undisturbed build vt idx l as) : Atomic build vt idx l (as ++ [a]) := by
  constructor
  · intro s' hs' hc
    obtain ⟨s, hs, hstep⟩ := run_concat hs'
    rcases step_answer hstep (.inl hc) with hsame | ⟨clonePanics, rfl⟩
    · exact h.valid s hs (hsame ▸ hc)
    · obtain ⟨src, hsrc, hcases⟩ := step_clone hstep
      have hheld := (run_invariant as s hs).holding src hsrc
      rcases hcases with ⟨-, hcall⟩ | ⟨hpoisoned, hne, -⟩ | ⟨-, -, hcall | hcall⟩
      · rw [hcall] at hc
        cases hc
      · have hreads : Reads build vt idx l as := ⟨s, hs, hpoisoned, src, hsrc⟩
        exact hne (hheld.calls_eq.mpr (ha clonePanics rfl hreads))
      · rw [hcall] at hc
        cases hc
      · rw [hcall] at hc
        cases hc
  · intro s' v hs' hc
    obtain ⟨s, hs, hstep⟩ := run_concat hs'
    rcases step_answer hstep (.inr ⟨v, hc⟩) with hsame | ⟨clonePanics, rfl⟩
    · obtain ⟨xs, hxs, hm⟩ := h.element s v hs (hsame ▸ hc)
      exact ⟨xs, hxs.trans (List.prefix_append ..), hm⟩
    · obtain ⟨src, hsrc, hcases⟩ := step_clone hstep
      have hheld := (run_invariant as s hs).holding src hsrc
      rcases hcases with ⟨-, hcall⟩ | ⟨-, -, hcall⟩ | ⟨-, -, hcall | hcall⟩
      · rw [hcall] at hc
        cases hc
      · rw [hcall] at hc
        cases hc
      · rw [hcall] at hc
        cases hc
      · rw [hcall] at hc
        have hv := Option.some.inj (Call.returned.inj hc)
        have helem : s.list.mem.read vt.size src.offset = s.list.elem vt idx := by
          rw [hheld.offset]
          rfl
        by_cases hsize : vt.size = 0
        · obtain ⟨xs, hxs, m, hm, hbetween, hlt⟩ := hheld.found
          refine ⟨xs, hxs.trans (List.prefix_append ..), m, hm, hbetween, hlt, ?_⟩
          rw [← hv, helem, elem_of_size_zero hsize s.list.toRawList m.list.toRawList idx idx]
        · refine ⟨as, List.prefix_append .., s, hs, ⟨src, hsrc⟩, hheld.len hsize, ?_⟩
          rw [← hv, helem]

/-- A disturbed call reads through a pointer into an allocation that is gone. -/
theorem dangling_of_disturbed (hreads : Reads build vt idx l as)
    (hnot : ¬ Undisturbed build vt idx l as) (clonePanics : Bool) :
    ¬ Atomic build vt idx l (as ++ [.clone clonePanics]) := by
  obtain ⟨s, hs, hpoisoned, src, hsrc⟩ := hreads
  have hheld := (run_invariant as s hs).holding src hsrc
  have hne : src.calls ≠ s.list.calls.length := fun heq => hnot (hheld.calls_eq.mp heq)
  intro hatomic
  apply hatomic.valid { s with call := .dangling }
  · rw [run_append, hs]
    simp [run, step, hsrc, hpoisoned, hne]
  · rfl

/-- Whatever the other handles do between its two sections, `list_get` returns a clone of an
element that was at its index, and reads no allocation that is gone, exactly as long as no
push reallocates the list between the two sections of a call that goes on to clone. -/
theorem list_get_atomic_iff (build : Build) (vt : VTable) (idx : ℕ) (l : AllocatedList)
    (as : List (Act vt)) :
    (∀ xs, xs <+: as → Atomic build vt idx l xs) ↔
      ∀ xs clonePanics, xs ++ [.clone clonePanics] <+: as → Reads build vt idx l xs →
        Undisturbed build vt idx l xs := by
  constructor
  · intro h xs clonePanics hxs hreads
    by_contra hnot
    exact dangling_of_disturbed hreads hnot clonePanics (h _ hxs)
  · intro h xs
    induction xs using List.reverseRecOn with
    | nil => exact fun _ => atomic_nil
    | append_singleton xs a ih =>
      intro hxs
      apply atomic_concat (ih ((List.prefix_append ..).trans hxs))
      rintro clonePanics rfl
      exact h xs clonePanics hxs

end

/-! ### A word is read from a list that grows -/

/-- A push of a word through another handle. -/
def pushWord : Act wordVTable := .other (.push (fun _ => 0) fun _ => 0)

/-- The fifth push comes between the two sections of the call. -/
def pushedBetween : List (Act wordVTable) :=
  [pushWord, pushWord, pushWord, pushWord, .find, pushWord, .clone false]

theorem clog_words :
    Nat.clog 2 2 = 1 ∧ Nat.clog 2 3 = 2 ∧ Nat.clog 2 4 = 2 ∧ Nat.clog 2 5 = 3 := by
  refine ⟨by decide, by decide, by decide, by decide⟩

theorem pushedBetween_dangling :
    ((run release wordVTable 0 (start wordVTable (.new wordVTable)) pushedBetween).map
      Shared.call) = some .dangling := by
  obtain ⟨h2, h3, h4, h5⟩ := clog_words
  simp [pushedBetween, pushWord, run, step, Section.run, start, AllocatedList.push,
    AllocatedList.new, AllocatedList.reserve, AllocatedList.grow, RawList.new, wordVTable, checked,
    computeCapacity, nextPowerOfTwo, usizeBound, arrayLayout, Build.usize, isizeBound, bind,
    Except.bind, pure, Except.pure, offsetOf, Except.toOption, RawList.get, h2, h3, h4, h5]

theorem pushedBetween_not_atomic :
    ¬ Atomic release wordVTable 0 (.new wordVTable) pushedBetween := by
  intro hatomic
  obtain ⟨s, hs, hcall⟩ := Option.map_eq_some_iff.mp pushedBetween_dangling
  exact hatomic.valid s hs hcall

end Roto.Value.ListGet
