import Mathlib.Logic.Function.Basic
import RotoCompiler.Lib.Graph

/-!
# Chains of links

A map some of whose entries are links to other keys. A chain of links ends at an entry that is
no link, or at an open key: one without an entry, or with an entry that names the key itself.
Two maps in which all chains end alike still do so after an open key is given an entry.
-/

namespace Roto.Links
open Relation Roto.Graph

variable {ι α : Type*} {target : α → Option ι} {m m' : ι → Option α}

/-- Where the chain from a key ends. -/
inductive End (target : α → Option ι) (m : ι → Option α) : ι → ι ⊕ α → Prop where
  | absent {i : ι} (h : m i = none) : End target m i (.inl i)
  | self {i : ι} {a : α} (h : m i = some a) (ha : target a = some i) : End target m i (.inl i)
  | closed {i : ι} {a : α} (h : m i = some a) (ha : target a = none) : End target m i (.inr a)
  | link {i j : ι} {a : α} {o : ι ⊕ α} (h : m i = some a) (ha : target a = some j) (hne : j ≠ i)
      (hj : End target m j o) : End target m i o

def Link (target : α → Option ι) (m : ι → Option α) (i j : ι) : Prop :=
  ∃ a, m i = some a ∧ target a = some j ∧ j ≠ i

def Open (target : α → Option ι) (m : ι → Option α) (v : ι) : Prop :=
  ∀ a, m v = some a → target a = some v

theorem End.isOpen {i v : ι} (h : End target m i (.inl v)) : Open target m v := by
  generalize ho : (Sum.inl v : ι ⊕ α) = o at h
  induction h with
  | absent h =>
    obtain rfl := Sum.inl.inj ho
    intro a ha
    rw [h] at ha
    cases ha
  | self h ha =>
    obtain rfl := Sum.inl.inj ho
    intro b hb
    obtain rfl := Option.some.inj (h.symm.trans hb)
    exact ha
  | closed => cases ho
  | link _ _ _ _ ih => exact ih ho

theorem End.not_link {i : ι} {a : α} (h : End target m i (.inr a)) : target a = none := by
  generalize ho : (Sum.inr a : ι ⊕ α) = o at h
  induction h with
  | absent => cases ho
  | self => cases ho
  | closed _ ha =>
    obtain rfl := Sum.inr.inj ho
    exact ha
  | link _ _ _ _ ih => exact ih ho

theorem Open.end {v : ι} (h : Open target m v) : End target m v (.inl v) := by
  cases hv : m v with
  | none => exact .absent hv
  | some a => exact .self hv (h a hv)

theorem Open.not_link {v j : ι} {a : α} (h : Open target m v) (hv : m v = some a)
    (ha : target a = some j) : j = v :=
  Option.some.inj (ha.symm.trans (h a hv))

theorem End.unique {i : ι} {o o' : ι ⊕ α} (h : End target m i o) (h' : End target m i o') :
    o = o' := by
  induction h with
  | absent h =>
    cases h' with
    | absent => rfl
    | self h' => cases h.symm.trans h'
    | closed h' => cases h.symm.trans h'
    | link h' => cases h.symm.trans h'
  | self h ha =>
    cases h' with
    | absent h' => cases h.symm.trans h'
    | self => rfl
    | closed h' ha' =>
      obtain rfl := Option.some.inj (h.symm.trans h')
      rw [ha] at ha'
      cases ha'
    | link h' ha' hne =>
      obtain rfl := Option.some.inj (h.symm.trans h')
      exact absurd (Option.some.inj (ha'.symm.trans ha)) hne
  | closed h ha =>
    cases h' with
    | absent h' => cases h.symm.trans h'
    | self h' ha' =>
      obtain rfl := Option.some.inj (h.symm.trans h')
      rw [ha] at ha'
      cases ha'
    | closed h' =>
      obtain rfl := Option.some.inj (h.symm.trans h')
      rfl
    | link h' ha' =>
      obtain rfl := Option.some.inj (h.symm.trans h')
      rw [ha] at ha'
      cases ha'
  | link h ha hne _ ih =>
    cases h' with
    | absent h' => cases h.symm.trans h'
    | self h' ha' =>
      obtain rfl := Option.some.inj (h.symm.trans h')
      exact absurd (Option.some.inj (ha.symm.trans ha')) hne
    | closed h' ha' =>
      obtain rfl := Option.some.inj (h.symm.trans h')
      rw [ha] at ha'
      cases ha'
    | link h' ha' _ hj' =>
      obtain rfl := Option.some.inj (h.symm.trans h')
      obtain rfl := Option.some.inj (ha.symm.trans ha')
      exact ih hj'

theorem End.links {i v : ι} (h : End target m i (.inl v)) : ReflTransGen (Link target m) i v := by
  generalize ho : (Sum.inl v : ι ⊕ α) = o at h
  induction h with
  | absent =>
    obtain rfl := Sum.inl.inj ho
    exact .refl
  | self =>
    obtain rfl := Sum.inl.inj ho
    exact .refl
  | closed => cases ho
  | link h ha hne _ ih => exact .head ⟨_, h, ha, hne⟩ (ih ho)

/-- Without cycles every chain has an end. -/
theorem exists_end (h : WellFounded fun j i => Link target m i j) (i : ι) :
    ∃ o, End target m i o := by
  induction i using h.induction with
  | _ i ih =>
    cases hi : m i with
    | none => exact ⟨_, .absent hi⟩
    | some a =>
      cases ha : target a with
      | none => exact ⟨_, .closed hi ha⟩
      | some j =>
        by_cases hne : j = i
        · exact ⟨_, .self hi (ha.trans (congrArg some hne))⟩
        · obtain ⟨o, ho⟩ := ih j ⟨a, hi, ha, hne⟩
          exact ⟨o, .link hi ha hne ho⟩

/-! ### A new entry at an open key -/

section
variable [DecidableEq ι] {v : ι} {b : α}

theorem update_of_link {i j : ι} {a : α} (hv : Open target m v) (h : m i = some a)
    (ha : target a = some j) (hne : j ≠ i) : Function.update m v (some b) i = some a := by
  have hiv : i ≠ v := by
    rintro rfl
    exact hne (hv.not_link h ha)
  rw [Function.update_of_ne hiv, h]

theorem End.reaches {i : ι} (h : End target m i (.inl v)) :
    ReflTransGen (Link target (Function.update m v (some b))) i v := by
  have hv := h.isOpen
  generalize ho : (Sum.inl v : ι ⊕ α) = o at h
  induction h with
  | absent =>
    obtain rfl := Sum.inl.inj ho
    exact .refl
  | self =>
    obtain rfl := Sum.inl.inj ho
    exact .refl
  | closed => cases ho
  | link h ha hne _ ih => exact .head ⟨_, update_of_link hv h ha hne, ha, hne⟩ (ih ho)

/-- Chains that ended at the key now end where its own chain does, and all others end as before. -/
theorem end_update_iff (hv : Open target m v) {i : ι} {o : ι ⊕ α} :
    End target (Function.update m v (some b)) i o ↔ (End target m i o ∧ o ≠ .inl v) ∨
      (End target m i (.inl v) ∧ End target (Function.update m v (some b)) v o) := by
  constructor
  · intro h
    induction h with
    | @absent i h =>
      have hiv : i ≠ v := by
        rintro rfl
        simp at h
      rw [Function.update_of_ne hiv] at h
      exact .inl ⟨.absent h, fun heq => hiv (Sum.inl.inj heq)⟩
    | @self i a h ha =>
      by_cases hiv : i = v
      · rw [hiv] at h ha ⊢
        exact .inr ⟨hv.end, .self h ha⟩
      · rw [Function.update_of_ne hiv] at h
        exact .inl ⟨.self h ha, fun heq => hiv (Sum.inl.inj heq)⟩
    | @closed i a h ha =>
      by_cases hiv : i = v
      · rw [hiv] at h ⊢
        exact .inr ⟨hv.end, .closed h ha⟩
      · rw [Function.update_of_ne hiv] at h
        exact .inl ⟨.closed h ha, nofun⟩
    | @link i j a o h ha hne hj ih =>
      by_cases hiv : i = v
      · rw [hiv] at h hne ⊢
        exact .inr ⟨hv.end, .link h ha hne hj⟩
      · rw [Function.update_of_ne hiv] at h
        rcases ih with ⟨hend, ho⟩ | ⟨hend, ho⟩
        · exact .inl ⟨.link h ha hne hend, ho⟩
        · exact .inr ⟨.link h ha hne hend, ho⟩
  · rintro (⟨h, ho⟩ | ⟨h, ho⟩)
    · induction h with
      | @absent i h =>
        have hiv : i ≠ v := fun heq => ho (congrArg Sum.inl heq)
        exact .absent (by rw [Function.update_of_ne hiv, h])
      | @self i a h ha =>
        have hiv : i ≠ v := fun heq => ho (congrArg Sum.inl heq)
        exact .self (by rw [Function.update_of_ne hiv, h]) ha
      | @closed i a h ha =>
        have hiv : i ≠ v := by
          rintro rfl
          rw [hv a h] at ha
          cases ha
        exact .closed (by rw [Function.update_of_ne hiv, h]) ha
      | link h ha hne _ ih => exact .link (update_of_link hv h ha hne) ha hne (ih ho)
    · generalize hw : (Sum.inl v : ι ⊕ α) = w at h
      induction h with
      | absent =>
        obtain rfl := Sum.inl.inj hw
        exact ho
      | self =>
        obtain rfl := Sum.inl.inj hw
        exact ho
      | closed => cases hw
      | link h ha hne _ ih => exact .link (update_of_link hv h ha hne) ha hne (ih hw)

/-- All chains end alike, and the open keys have the same entries. -/
structure Same (target : α → Option ι) (m m' : ι → Option α) : Prop where
  ends : ∀ i o, End target m' i o ↔ End target m i o
  entry : ∀ v, Open target m v → m' v = m v

omit [DecidableEq ι] in
theorem Same.refl (m : ι → Option α) : Same target m m := ⟨fun _ _ => .rfl, fun _ _ => rfl⟩

omit [DecidableEq ι] in
theorem Same.trans {m'' : ι → Option α} (h : Same target m m') (h' : Same target m' m'') :
    Same target m m'' := by
  refine ⟨fun i o => (h'.ends i o).trans (h.ends i o), fun v hv => ?_⟩
  have hopen : Open target m' v := ((h.ends v _).mpr hv.end).isOpen
  exact (h'.entry v hopen).trans (h.entry v hv)

omit [DecidableEq ι] in
theorem Same.isOpen (h : Same target m m') : Open target m' v ↔ Open target m v := by
  constructor
  · exact fun hv => ((h.ends v _).mp hv.end).isOpen
  · exact fun hv => ((h.ends v _).mpr hv.end).isOpen

/-- The chain from the new entry does not come back, so it does not use that entry. -/
theorem end_new_iff (hv : Open target m v) {j : ι} (hb : target b = some j) (hne : j ≠ v)
    (hback : ¬ End target m j (.inl v)) {o : ι ⊕ α} :
    End target (Function.update m v (some b)) v o ↔ End target m j o ∧ o ≠ .inl v := by
  have hself : Function.update m v (some b) v = some b := Function.update_self ..
  have hlink : End target (Function.update m v (some b)) v o ↔
      End target (Function.update m v (some b)) j o := by
    constructor
    · intro h
      cases h with
      | absent h => cases hself.symm.trans h
      | self h ha =>
        obtain rfl := Option.some.inj (hself.symm.trans h)
        exact absurd (Option.some.inj (hb.symm.trans ha)) hne
      | closed h ha =>
        obtain rfl := Option.some.inj (hself.symm.trans h)
        rw [hb] at ha
        cases ha
      | link h ha _ hj =>
        obtain rfl := Option.some.inj (hself.symm.trans h)
        obtain rfl := Option.some.inj (hb.symm.trans ha)
        exact hj
    · exact fun h => .link hself hb hne h
  rw [hlink, end_update_iff hv]
  exact or_iff_left fun h => hback h.1

/-- An entry is given to an open key, and links to nothing that leads back. -/
theorem Same.update (h : Same target m m') (hv : Open target m v)
    (hacyclic : Acyclic (Link target (Function.update m' v (some b)))) :
    Same target (Function.update m v (some b)) (Function.update m' v (some b)) := by
  have hv' := h.isOpen.mpr hv
  have hnew : ∀ o, End target (Function.update m' v (some b)) v o ↔
      End target (Function.update m v (some b)) v o := by
    intro o
    have hself : Function.update m v (some b) v = some b := Function.update_self ..
    have hself' : Function.update m' v (some b) v = some b := Function.update_self ..
    cases hb : target b with
    | none =>
      constructor
      · intro ho
        obtain rfl := ho.unique (.closed hself' hb)
        exact .closed hself hb
      · intro ho
        obtain rfl := ho.unique (.closed hself hb)
        exact .closed hself' hb
    | some j =>
      by_cases hne : j = v
      · rw [hne] at hb
        constructor
        · intro ho
          obtain rfl := ho.unique (.self hself' hb)
          exact .self hself hb
        · intro ho
          obtain rfl := ho.unique (.self hself hb)
          exact .self hself' hb
      · have hback : ¬ End target m' j (.inl v) := fun hj =>
          hacyclic v (.head' ⟨b, hself', hb, hne⟩ hj.reaches)
        have hback' : ¬ End target m j (.inl v) := fun hj => hback ((h.ends j _).mpr hj)
        rw [end_new_iff hv' hb hne hback, end_new_iff hv hb hne hback', h.ends]
  refine ⟨fun i o => ?_, fun w hw => ?_⟩
  · rw [end_update_iff hv', end_update_iff hv, h.ends, h.ends, hnew]
  · by_cases hwv : w = v
    · rw [hwv, Function.update_self, Function.update_self]
    · rw [Function.update_of_ne hwv, Function.update_of_ne hwv]
      refine h.entry w fun a ha => hw a ?_
      rw [Function.update_of_ne hwv, ha]

end

end Roto.Links
