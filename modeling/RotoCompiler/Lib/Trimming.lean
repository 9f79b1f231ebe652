import Mathlib.Logic.Relation
import Mathlib.Data.List.Basic
import Mathlib.Data.List.Nodup
import Mathlib.Data.List.Perm.Subperm

/-!
# Flow graphs, and runs of them

A block of code ends at its first instruction that leads to other blocks, or that leads to
none: what stands behind it is never run. So a graph with each block cut there, and without
the blocks that no path leads to, has the same runs.
-/

namespace Trimming

variable {L I S : Type}

section Blocks
variable (targets : I → Option (List L))

/-- A block without the instructions that are never run. -/
def cut : List I → List I
  | [] => []
  | i :: is => if (targets i).isSome then [i] else i :: cut is

/-- Where a block leads to. -/
def exits : List I → Option (List L)
  | [] => none
  | i :: is => (targets i).or (exits is)

theorem cut_of_ends {i : I} (h : (targets i).isSome) (is : List I) :
    cut targets (i :: is) = [i] := if_pos h

theorem cut_of_passes {i : I} (h : targets i = none) (is : List I) :
    cut targets (i :: is) = i :: cut targets is := by
  rw [cut, h]
  rfl

theorem exits_of_passes {i : I} (h : targets i = none) (is : List I) :
    exits targets (i :: is) = exits targets is := by
  change (targets i).or (exits targets is) = exits targets is
  rw [h, Option.none_or]

theorem exits_isSome {is : List I} (h : ∃ i ∈ is, (targets i).isSome) :
    (exits targets is).isSome := by
  induction is with
  | nil =>
    obtain ⟨i, hi, -⟩ := h
    cases hi
  | cons j js ih =>
    cases hj : targets j with
    | some ls =>
      rw [exits, hj]
      rfl
    | none =>
      rw [exits_of_passes targets hj]
      obtain ⟨i, hi, hends⟩ := h
      rcases List.mem_cons.mp hi with rfl | hi
      · rw [hj] at hends
        cases hends
      · exact ih ⟨i, hi, hends⟩

theorem exits_subset {is : List I} {ls : List L} (h : exits targets is = some ls) :
    ∃ i ∈ is, targets i = some ls := by
  induction is with
  | nil => cases h
  | cons i is ih =>
    cases hi : targets i with
    | some ls' =>
      rw [exits, hi] at h
      exact ⟨i, List.mem_cons_self, hi.trans h⟩
    | none =>
      rw [exits_of_passes targets hi] at h
      obtain ⟨j, hj, htargets⟩ := ih h
      exact ⟨j, List.mem_cons_of_mem i hj, htargets⟩

/-- A block that is cut stops at its end. -/
theorem cut_eq {is : List I} {ls : List L} (h : exits targets is = some ls) :
    ∃ is' i, cut targets is = is' ++ [i] ∧ (∀ j ∈ is', targets j = none) ∧
      targets i = some ls := by
  induction is with
  | nil => cases h
  | cons i is ih =>
    cases hi : targets i with
    | some ls' =>
      rw [exits, hi] at h
      refine ⟨[], i, cut_of_ends targets (by rw [hi]; rfl) is, ?_, hi.trans h⟩
      intro j hj
      cases hj
    | none =>
      rw [exits_of_passes targets hi] at h
      obtain ⟨is', j, hcut, hpasses, hj⟩ := ih h
      refine ⟨i :: is', j, ?_, List.forall_mem_cons.mpr ⟨hi, hpasses⟩, hj⟩
      rw [cut_of_passes targets hi, hcut, List.cons_append]

theorem exits_cut (is : List I) : exits targets (cut targets is) = exits targets is := by
  induction is with
  | nil => rfl
  | cons i is ih =>
    cases hi : targets i with
    | some ls =>
      rw [cut_of_ends targets (by rw [hi]; rfl)]
      simp only [exits, hi, Option.some_or]
    | none => rw [cut_of_passes targets hi, exits_of_passes targets hi, exits_of_passes targets hi, ih]

/-- One block leads to another. -/
def Edge (code : L → Option (List I)) (a b : L) : Prop :=
  ∃ is ls, code a = some is ∧ exits targets is = some ls ∧ b ∈ ls

def Reaches (code : L → Option (List I)) : L → L → Prop := Relation.ReflTransGen (Edge targets code)

end Blocks

/-- What the instructions do: in a block they change the state, at its end they choose the
next block. -/
structure Machine (L I S : Type) where
  targets : I → Option (List L)
  step : S → I → Option S
  goto : S → I → Option L
  goto_mem : ∀ s i l ls, targets i = some ls → goto s i = some l → l ∈ ls

namespace Machine
variable (m : Machine L I S)

/-- One instruction is run: what is left of the block, and the state. -/
def next (code : L → Option (List I)) : List I × S → Option (List I × S)
  | ([], _) => none
  | (i :: is, s) =>
    if (m.targets i).isSome then do
      let l ← m.goto s i
      let block ← code l
      return (block, s)
    else (m.step s i).map fun s => (is, s)

/-- The first `n` instructions of a run, each with the state that it is run in. -/
def trace (code : L → Option (List I)) : ℕ → List I × S → List (I × S)
  | 0, _ => []
  | _ + 1, ([], _) => []
  | n + 1, (i :: is, s) =>
    (i, s) :: match m.next code (i :: is, s) with
      | none => []
      | some c => trace code n c

variable {m}

/-- The blocks that `start` leads to are the same in both graphs, but for what is never run. -/
def Trims (m : Machine L I S) (code code' : L → Option (List I)) (start : L) : Prop :=
  ∀ l, Reaches m.targets code start l → code' l = (code l).map (cut m.targets)

/-- A run in the middle of a block that leads to blocks which `start` leads to. -/
theorem trace_cut {code code' : L → Option (List I)} {start : L} (h : m.Trims code code' start)
    (n : ℕ) (is : List I) (s : S)
    (hexits : ∀ ls, exits m.targets is = some ls → ∀ l ∈ ls, Reaches m.targets code start l) :
    m.trace code' n (cut m.targets is, s) = m.trace code n (is, s) := by
  induction n generalizing is s with
  | zero => rfl
  | succ n ih =>
    cases is with
    | nil => rfl
    | cons i is =>
      cases hi : m.targets i with
      | none =>
        -- inside of the block
        have hrest : ∀ ls, exits m.targets is = some ls → ∀ l ∈ ls,
            Reaches m.targets code start l := by
          intro ls hls
          apply hexits
          rwa [exits_of_passes m.targets hi]
        rw [cut_of_passes m.targets hi]
        cases hstep : m.step s i with
        | none => simp [trace, next, hi, hstep]
        | some s' => simp [trace, next, hi, hstep, ih is s' hrest]
      | some ls =>
        -- the end of the block
        have hends : (m.targets i).isSome := by rw [hi]; rfl
        rw [cut_of_ends m.targets hends]
        cases hgoto : m.goto s i with
        | none => simp [trace, next, hi, hgoto]
        | some l =>
          have hmem : l ∈ ls := m.goto_mem s i l ls hi hgoto
          have hreach : Reaches m.targets code start l := by
            apply hexits ls _ l hmem
            rw [exits, hi]
            rfl
          have hcode := h l hreach
          cases hblock : code l with
          | none =>
            rw [hblock] at hcode
            simp [trace, next, hi, hgoto, hblock, hcode]
          | some block =>
            rw [hblock] at hcode
            have hblocks : ∀ ls, exits m.targets block = some ls → ∀ l ∈ ls,
                Reaches m.targets code start l := by
              intro ls' hls' l' hl'
              exact hreach.tail ⟨block, ls', hblock, hls', hl'⟩
            simp [trace, next, hi, hgoto, hblock, hcode, ih block s hblocks]

/-- A run from the start of the first block. -/
theorem trace_trims {code code' : L → Option (List I)} {start : L} (h : m.Trims code code' start)
    {block : List I} (hstart : code start = some block) (n : ℕ) (s : S) :
    m.trace code' n (cut m.targets block, s) = m.trace code n (block, s) := by
  apply trace_cut h
  intro ls hls l hl
  exact Relation.ReflTransGen.single ⟨block, ls, hstart, hls, hl⟩

end Machine

/-! ### Reachable blocks -/

section Saturation
variable {edge : L → L → Prop} {start : L}

/-- A list of labels without its first `i` ones being worked off: they were found by following
edges, and what the first `i` lead to was found. -/
structure Found (edge : L → L → Prop) (start : L) (i : ℕ) (labels : List L) : Prop where
  nodup : labels.Nodup
  first : labels.head? = some start
  reached : ∀ l ∈ labels, Relation.ReflTransGen edge start l
  closed : ∀ l ∈ labels.take i, ∀ l', edge l l' → l' ∈ labels

theorem Found.begin (edge : L → L → Prop) (start : L) : Found edge start 0 [start] where
  nodup := List.nodup_singleton start
  first := rfl
  reached l hl := by
    rw [List.mem_singleton.mp hl]
  closed l hl := nomatch hl

/-- The next label is worked off when all that it leads to was added. -/
theorem Found.step {i : ℕ} {labels new : List L} (h : Found edge start i labels)
    (hi : i < labels.length) (hnodup : (labels ++ new).Nodup)
    (hedge : ∀ l', edge labels[i] l' → l' ∈ labels ++ new)
    (hnew : ∀ l' ∈ new, edge labels[i] l') : Found edge start (i + 1) (labels ++ new) where
  nodup := hnodup
  first := by
    cases labels with
    | nil => cases h.first
    | cons l ls => exact h.first
  reached l hl := by
    rcases List.mem_append.mp hl with hl | hl
    · exact h.reached l hl
    · exact (h.reached _ (List.getElem_mem hi)).tail (hnew l hl)
  closed l hl l' hedge' := by
    rw [List.take_append_of_le_length hi, List.take_succ_eq_append_getElem hi] at hl
    rcases List.mem_append.mp hl with hl | hl
    · exact List.mem_append_left new (h.closed l hl l' hedge')
    · rw [List.mem_singleton.mp hl] at hedge'
      exact hedge l' hedge'

/-- When all are worked off, the labels are the ones that `start` leads to. -/
theorem Found.mem_iff {i : ℕ} {labels : List L} (h : Found edge start i labels)
    (hi : labels.length ≤ i) (l : L) : l ∈ labels ↔ Relation.ReflTransGen edge start l := by
  constructor
  · exact h.reached l
  · intro hpath
    induction hpath with
    | refl => exact List.mem_of_head? h.first
    | tail _ hedge ih =>
      apply h.closed _ _ _ hedge
      rwa [List.take_of_length_le hi]

theorem Found.length_le {i : ℕ} {labels all : List L} (h : Found edge start i labels)
    (hall : ∀ l ∈ labels, l ∈ all) : labels.length ≤ all.length :=
  (h.nodup.subperm hall).length_le

end Saturation

end Trimming
