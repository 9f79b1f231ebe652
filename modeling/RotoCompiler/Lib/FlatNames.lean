import Mathlib.Data.List.Basic
import Mathlib.Data.List.Nodup

/-!
# Names in one flat space

Names that are paths, joined by a separator, and names that are entered in a table one after
the other. Two joined paths are the same name when they agree once their parts are split at
the separator; entered names are different when each one has to be new.
-/

namespace Roto.Lib.FlatNames

section
variable {α : Type} {sep : α} {path path' : List (List α)} {name name' : List α}

/-- A name at the end of a path. -/
def joined (sep : α) (path : List (List α)) (name : List α) : List α :=
  [sep].intercalate path ++ sep :: name

theorem mem_joined : sep ∈ joined sep path name :=
  List.mem_append_right _ List.mem_cons_self

variable [BEq α] [LawfulBEq α]

/-- The parts of a path, with those split that contain the separator. -/
def pieces (sep : α) (path : List (List α)) : List (List α) := path.flatMap fun p => p.splitOn sep

theorem splitOn_intercalate (h : path ≠ []) :
    ([sep].intercalate path).splitOn sep = pieces sep path := by
  induction path with
  | nil => exact absurd rfl h
  | cons p path ih =>
    cases path with
    | nil => rw [List.intercalate_singleton, pieces, List.flatMap_cons, List.flatMap_nil,
        List.append_nil]
    | cons q path =>
      have hrest := ih (List.cons_ne_nil q path)
      rw [List.intercalate_cons_cons, List.append_assoc, List.singleton_append,
        List.splitOn_append_cons_self, hrest]
      rfl

theorem splitOn_injective (sep : α) {a b : List α} (h : a.splitOn sep = b.splitOn sep) : a = b := by
  have ha : [sep].intercalate (a.splitOn sep) = a := List.intercalate_splitOn sep
  have hb : [sep].intercalate (b.splitOn sep) = b := List.intercalate_splitOn sep
  rw [← ha, h, hb]

theorem splitOn_joined (hpath : path ≠ []) (hname : sep ∉ name) :
    (joined sep path name).splitOn sep = pieces sep path ++ [name] := by
  rw [joined, List.splitOn_append_cons_self, splitOn_intercalate hpath,
    List.splitOn_eq_singleton hname]

/-- Joined names are the same when the pieces of the paths and the last parts are. -/
theorem joined_eq_iff (hpath : path ≠ []) (hpath' : path' ≠ []) (hname : sep ∉ name)
    (hname' : sep ∉ name') :
    joined sep path name = joined sep path' name' ↔
      pieces sep path = pieces sep path' ∧ name = name' := by
  have hsplit := splitOn_joined hpath hname
  have hsplit' := splitOn_joined hpath' hname'
  constructor
  · intro h
    rw [h, hsplit'] at hsplit
    obtain ⟨hpieces, hlast⟩ := List.append_inj' hsplit rfl
    exact ⟨hpieces.symm, (List.cons.inj hlast).1.symm⟩
  · rintro ⟨hpieces, rfl⟩
    apply splitOn_injective sep
    rw [hsplit, hsplit', hpieces]

theorem pieces_eq_self (h : ∀ p ∈ path, sep ∉ p) : pieces sep path = path := by
  induction path with
  | nil => rfl
  | cons p path ih =>
    obtain ⟨hp, hpath⟩ := List.forall_mem_cons.mp h
    rw [pieces, List.flatMap_cons, List.splitOn_eq_singleton hp]
    exact congrArg (p :: ·) (ih hpath)

end

/-! ### Entering names -/

section
variable {σ α κ : Type}

/-- A run of steps, one for each element of a list. -/
inductive Steps (step : σ → α → σ → Prop) : σ → List α → σ → Prop where
  | nil (s : σ) : Steps step s [] s
  | cons {s s' s'' : σ} {a : α} {as : List α} :
      step s a s' → Steps step s' as s'' → Steps step s (a :: as) s''

variable {step : σ → α → σ → Prop} {key : α → Option κ} {s s' : σ}
  {as : List α}

theorem Steps.taken (Taken : σ → κ → Prop) (h : Steps step s as s')
    (hkeep : ∀ s a s' k, step s a s' → Taken s k → Taken s' k) {k : κ} (hk : Taken s k) :
    Taken s' k := by
  induction h with
  | nil s => exact hk
  | cons hstep _ ih => exact ih (hkeep _ _ _ _ hstep hk)

theorem Steps.exists_step (h : Steps step s as s') {a : α} (ha : a ∈ as) :
    ∃ s₁ s₂, step s₁ a s₂ := by
  induction h with
  | nil s => exact absurd ha List.not_mem_nil
  | cons hstep _ ih =>
    rcases List.mem_cons.mp ha with rfl | ha
    · exact ⟨_, _, hstep⟩
    · exact ih ha

/-- When each step takes a name that was free, the names of a run are different. -/
theorem Steps.fresh (Taken : σ → κ → Prop) (h : Steps step s as s')
    (hkeep : ∀ s a s' k, step s a s' → Taken s k → Taken s' k)
    (hfree : ∀ s a s' k, step s a s' → key a = some k → ¬ Taken s k ∧ Taken s' k) :
    (as.filterMap key).Nodup ∧ ∀ k ∈ as.filterMap key, ¬ Taken s k ∧ Taken s' k := by
  induction h with
  | nil s => exact ⟨List.nodup_nil, fun k hk => absurd hk List.not_mem_nil⟩
  | @cons s s₁ s₂ a as hstep hsteps ih =>
    obtain ⟨hnodup, hall⟩ := ih
    have hlater : ∀ k ∈ as.filterMap key, ¬ Taken s k ∧ Taken s₂ k := by
      intro k hk
      obtain ⟨hnot, htaken⟩ := hall k hk
      exact ⟨fun h => hnot (hkeep _ _ _ _ hstep h), htaken⟩
    cases hkey : key a with
    | none =>
      rw [List.filterMap_cons_none hkey]
      exact ⟨hnodup, hlater⟩
    | some k =>
      obtain ⟨hnot, htaken⟩ := hfree _ _ _ _ hstep hkey
      rw [List.filterMap_cons_some hkey]
      refine ⟨List.nodup_cons.mpr ⟨fun hk => (hall k hk).1 htaken, hnodup⟩, ?_⟩
      refine List.forall_mem_cons.mpr ⟨⟨hnot, ?_⟩, hlater⟩
      exact hsteps.taken Taken hkeep htaken

/-- An element is found by the name that it takes. -/
theorem eq_of_key_eq (h : (as.filterMap key).Nodup) {i j : ℕ} {a b : α} {k : κ}
    (hi : as[i]? = some a) (hj : as[j]? = some b) (ha : key a = some k) (hb : key b = some k) :
    i = j := by
  have hpair : as.Pairwise fun a a' => ∀ b, key a = some b → ∀ b', key a' = some b' → b ≠ b' :=
    List.pairwise_filterMap.mp h
  rw [List.pairwise_iff_getElem] at hpair
  obtain ⟨hilt, rfl⟩ := List.getElem?_eq_some_iff.mp hi
  obtain ⟨hjlt, rfl⟩ := List.getElem?_eq_some_iff.mp hj
  rcases Nat.lt_trichotomy i j with hlt | heq | hlt
  · exact absurd rfl (hpair i j hilt hjlt hlt k ha k hb)
  · exact heq
  · exact absurd rfl (hpair j i hjlt hilt hlt k hb k ha)

end

end Roto.Lib.FlatNames
