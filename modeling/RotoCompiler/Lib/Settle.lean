import Mathlib.Data.List.Perm.Basic
import Mathlib.Logic.Function.Basic

/-!
# Jobs that are retried until nothing changes

Each job looks up at most one key of an environment, and then has an entry to add to it, or
has none yet. Jobs are attempted in the order of a list, again and again, until all of them
are done or a round has done none. The outcome is the same for all orders of the jobs
exactly when, on the way of any order in which all jobs can be done, no job changes the
entry of another one that could be done instead.
-/

namespace Roto.Settle

variable {J K D N : Type}

abbrev Env (K D : Type) := K → Option D

/-! ### Targets -/

section Target

variable (target : Env K D → J → Option (K × D))

/-- A job depends on at most one key. -/
def Local : Prop :=
  ∀ j, ∃ k, ∀ E E' : Env K D, E k = E' k → target E j = target E' j

/-- The entries of a job have one key, and what is seen of them tells them apart. -/
structure Fixed (view : D → N) : Prop where
  key_eq : ∀ j E E' x x', target E j = some x → target E' j = some x' → x.1 = x'.1
  view_inj : ∀ j E E' x x', target E j = some x → target E' j = some x' →
    view x.2 = view x'.2 → x.2 = x'.2

/-- Entries stay. -/
def Le (E E' : Env K D) : Prop := ∀ k d, E k = some d → E' k = some d

variable {target} {E E₁ E₂ : Env K D} {j : J}

theorem Le.refl (E : Env K D) : Le E E := fun _ _ => id

theorem Le.trans (h : Le E E₁) (h' : Le E₁ E₂) : Le E E₂ := fun k d hd => h' k d (h k d hd)

/-- A job with the same entry in two environments has it in those between them. -/
theorem target_between (hlocal : Local target) (h₁ : Le E E₁) (h₂ : Le E₁ E₂) {x : K × D}
    (hd : target E j = some x) (hd' : target E₂ j = some x) : target E₁ j = some x := by
  obtain ⟨k, hk⟩ := hlocal j
  cases hE : E₁ k with
  | some e => rw [hk E₁ E₂ (by rw [hE, h₂ k e hE]), hd']
  | none =>
    have hE' : E k = none := by
      by_contra hne
      obtain ⟨e, he⟩ := Option.ne_none_iff_exists'.mp hne
      rw [h₁ k e he] at hE
      cases hE
    rw [hk E₁ E (by rw [hE, hE']), hd]

end Target

/-! ### Attempts and rounds -/

variable [DecidableEq K] (target : Env K D → J → Option (K × D))

/-- An entry is added if there is none with its key. -/
def attempt (E : Env K D) (j : J) : Option (Env K D) :=
  match target E j with
  | none => none
  | some (k, d) => if (E k).isNone then some (Function.update E k (some d)) else none

/-- All jobs are done, each after those before it. -/
def sequence : Env K D → List J → Option (Env K D)
  | E, [] => some E
  | E, j :: js => (attempt target E j).bind fun E => sequence E js

/-- One round: the jobs that are left, and the environment. -/
def sweep : Env K D → List J → List J × Env K D
  | E, [] => ([], E)
  | E, j :: js =>
    match attempt target E j with
    | some E => sweep E js
    | none =>
      let (rest, E) := sweep E js
      (j :: rest, E)

/-- Rounds until no job is left, or no job has been done. -/
def settle : ℕ → Env K D → List J → Option (Env K D)
  | 0, _, _ => none
  | fuel + 1, E, js =>
    let (rest, E) := sweep target E js
    if rest = [] then some E
    else if rest.length = js.length then none
    else settle fuel E rest

/-- Of two jobs that can be done at some point of an order in which all can be done, each
has the same entry after the other one. -/
def Undisturbed (E : Env K D) (js : List J) : Prop :=
  ∀ before p q rest after E₁ E₂ x E₃, (before ++ p :: q :: rest).Perm js →
    sequence target E before = some E₁ → after.Perm (p :: q :: rest) →
    sequence target E₁ after = some E₂ → target E₁ p = some x →
    attempt target E₁ q = some E₃ → target E₃ p = some x

variable {target} {E E₁ E₂ E₃ : Env K D} {j p q : J} {js before after : List J}

/-! ### Sequences -/

theorem attempt_eq_some :
    attempt target E j = some E₁ ↔
      ∃ k d, target E j = some (k, d) ∧ E k = none ∧ E₁ = Function.update E k (some d) := by
  unfold attempt
  cases target E j with
  | none => simp
  | some x =>
    obtain ⟨k, d⟩ := x
    cases hE : E k with
    | none =>
      have hcomm : some (Function.update E k (some d)) = some E₁ ↔
          E₁ = Function.update E k (some d) := by rw [Option.some.injEq, eq_comm]
      simp only [hE, Option.isNone_none, if_true, hcomm, Option.some.injEq, Prod.mk.injEq]
      exact ⟨fun h => ⟨k, d, ⟨rfl, rfl⟩, hE, h⟩, fun ⟨_, _, ⟨rfl, rfl⟩, _, h⟩ => h⟩
    | some e =>
      simp only [hE, Option.isNone_some, Bool.false_eq_true, if_false, Option.some.injEq,
        Prod.mk.injEq]
      refine ⟨nofun, ?_⟩
      rintro ⟨_, _, ⟨rfl, rfl⟩, hnone, -⟩
      rw [hE] at hnone
      cases hnone

theorem sequence_append (E : Env K D) (js ks : List J) :
    sequence target E (js ++ ks) =
      (sequence target E js).bind fun E => sequence target E ks := by
  induction js generalizing E with
  | nil => rfl
  | cons j js ih =>
    rw [List.cons_append, sequence, sequence]
    cases attempt target E j with
    | none => rfl
    | some E₁ => exact ih E₁

theorem sequence_cons_some (h : sequence target E (j :: js) = some E₂) :
    ∃ E₁, attempt target E j = some E₁ ∧ sequence target E₁ js = some E₂ :=
  Option.bind_eq_some_iff.mp h

theorem attempt_le (h : attempt target E j = some E₁) : Le E E₁ := by
  obtain ⟨k, d, -, hnone, rfl⟩ := attempt_eq_some.mp h
  intro i e he
  rw [Function.update_of_ne]
  · exact he
  · rintro rfl
    rw [hnone] at he
    cases he

theorem sequence_le (h : sequence target E js = some E₁) : Le E E₁ := by
  induction js generalizing E with
  | nil => exact Option.some.inj h ▸ Le.refl E
  | cons j js ih =>
    obtain ⟨E₂, hj, hjs⟩ := sequence_cons_some h
    exact (attempt_le hj).trans (ih hjs)

/-- A job that is done in a sequence adds its entry at some point. -/
theorem exists_target (h : sequence target E js = some E₂) (hj : j ∈ js) :
    ∃ E₁ k d, Le E E₁ ∧ Le E₁ E₂ ∧ target E₁ j = some (k, d) ∧ E₁ k = none ∧ E₂ k = some d := by
  induction js generalizing E with
  | nil => cases hj
  | cons i js ih =>
    obtain ⟨E₃, hi, hjs⟩ := sequence_cons_some h
    rcases List.mem_cons.mp hj with rfl | hj
    · obtain ⟨k, d, hd, hnone, rfl⟩ := attempt_eq_some.mp hi
      exact ⟨E, k, d, .refl E, (attempt_le hi).trans (sequence_le hjs), hd, hnone,
        sequence_le hjs _ _ (Function.update_self ..)⟩
    · obtain ⟨E₁, k, d, hle, hle', hd⟩ := ih hjs hj
      exact ⟨E₁, k, d, (attempt_le hi).trans hle, hle', hd⟩

/-- The entry of a job that is still to be done is not there yet. -/
theorem key_none {view : D → N} (hfixed : Fixed target view)
    (h : sequence target E js = some E₂) (hj : j ∈ js) {E' : Env K D} {x : K × D}
    (hx : target E' j = some x) : E x.1 = none := by
  obtain ⟨E₁, k, e, hle, -, he, hnone, -⟩ := exists_target h hj
  rw [hfixed.key_eq j E' E₁ x (k, e) hx he]
  by_contra hne
  obtain ⟨y, hy⟩ := Option.ne_none_iff_exists'.mp hne
  rw [hle _ _ hy] at hnone
  cases hnone

/-! ### Rounds -/

theorem sweep_append (h : sequence target E before = some E₁) :
    sweep target E (before ++ js) = sweep target E₁ js := by
  induction before generalizing E with
  | nil => rw [List.nil_append, Option.some.inj h]
  | cons j before ih =>
    obtain ⟨E₂, hj, hrest⟩ := sequence_cons_some h
    rw [List.cons_append, sweep, hj]
    exact ih hrest

/-- A round does a part of the jobs, in their order. -/
theorem sweep_spec (target : Env K D → J → Option (K × D)) (E : Env K D) (js : List J) :
    ∃ done, sequence target E done = some (sweep target E js).2 ∧
      (done ++ (sweep target E js).1).Perm js := by
  induction js generalizing E with
  | nil => exact ⟨[], rfl, .nil⟩
  | cons j js ih =>
    rw [sweep]
    cases hj : attempt target E j with
    | some E₁ =>
      obtain ⟨done, hdone, hperm⟩ := ih E₁
      exact ⟨j :: done, by rw [sequence, hj]; exact hdone, hperm.cons j⟩
    | none =>
      obtain ⟨done, hdone, hperm⟩ := ih E
      exact ⟨done, hdone, List.perm_middle.trans (hperm.cons j)⟩

theorem sweep_length_le (target : Env K D → J → Option (K × D)) (E : Env K D)
    (js : List J) :
    (sweep target E js).1.length ≤ js.length := by
  obtain ⟨done, -, hperm⟩ := sweep_spec target E js
  have hlen := hperm.length_eq
  rw [List.length_append] at hlen
  omega

/-- In a round without progress every attempt fails. -/
theorem sweep_stuck (h : (sweep target E js).1.length = js.length) :
    ∀ j ∈ js, attempt target E j = none := by
  induction js with
  | nil => simp
  | cons j js ih =>
    rw [sweep] at h
    cases hj : attempt target E j with
    | some E₁ =>
      rw [hj] at h
      have hle := sweep_length_le target E₁ js
      simp only [List.length_cons] at h
      omega
    | none =>
      rw [hj] at h
      simp only [List.length_cons, Nat.add_right_cancel_iff] at h
      exact List.forall_mem_cons.mpr ⟨hj, ih h⟩

/-- A round without progress leaves the environment as it is. -/
theorem sweep_stuck_env (h : (sweep target E js).1.length = js.length) :
    (sweep target E js).2 = E ∧ ∀ j ∈ (sweep target E js).1, j ∈ js := by
  obtain ⟨done, hdone, hperm⟩ := sweep_spec target E js
  have hlen := hperm.length_eq
  rw [List.length_append, h] at hlen
  obtain rfl : done = [] := List.length_eq_zero_iff.mp (by omega)
  exact ⟨(Option.some.inj hdone).symm, fun j hj => hperm.mem_iff.mp hj⟩

/-- When all jobs are done, they are done in some order, which starts with what can be done
first. -/
theorem settle_order {fuel : ℕ} (before : List J)
    (h : settle target fuel E (before ++ js) = some E₂)
    (hbefore : sequence target E before = some E₁) :
    ∃ order, order.Perm js ∧ sequence target E₁ order = some E₂ := by
  induction fuel generalizing E E₁ before js with
  | zero => cases h
  | succ fuel ih =>
    simp only [settle, sweep_append hbefore] at h
    obtain ⟨done, hdone, hperm⟩ := sweep_spec target E₁ js
    split_ifs at h with hnil hlen
    · rw [hnil, List.append_nil] at hperm
      exact ⟨done, hperm, Option.some.inj h ▸ hdone⟩
    · obtain ⟨order, horder, hseq⟩ := ih [] h rfl
      refine ⟨done ++ order, (horder.append_left done).trans hperm, ?_⟩
      rw [sequence_append, hdone]
      exact hseq

/-! ### The order of the jobs -/

variable {view : D → N}

/-- In an undisturbed order, a job that can be done can be done first. -/
theorem Undisturbed.first (h : Undisturbed target E js) (hfixed : Fixed target view)
    (before : List J)
    (hbefore : sequence target E before = some E₁) (hperm : (before ++ after).Perm js)
    (hafter : sequence target E₁ after = some E₂) (hp : p ∈ after)
    (hattempt : attempt target E₁ p = some E₃) :
    ∃ rest, after.Perm (p :: rest) ∧ sequence target E₃ rest = some E₂ := by
  induction after generalizing before E₁ E₃ with
  | nil => cases hp
  | cons q after ih =>
    obtain ⟨E₄, hq, hrest⟩ := sequence_cons_some hafter
    rcases List.mem_cons.mp hp with rfl | hp
    · rw [hattempt] at hq
      obtain rfl := Option.some.inj hq
      exact ⟨after, .refl _, hrest⟩
    · obtain ⟨k, d, hd, hnone, rfl⟩ := attempt_eq_some.mp hattempt
      obtain ⟨i, e, he, hnone', rfl⟩ := attempt_eq_some.mp hq
      obtain ⟨others, hothers⟩ : ∃ others, after.Perm (p :: others) := by
        obtain ⟨s, t, rfl⟩ := List.append_of_mem hp
        exact ⟨s ++ t, List.perm_middle⟩
      have hpq : (before ++ p :: q :: others).Perm js :=
        .trans (.append_left _ (.trans (.swap q p others) (hothers.symm.cons q))) hperm
      have hqp : (before ++ q :: p :: others).Perm js :=
        .trans (.append_left _ (hothers.symm.cons q)) hperm
      have hall : (q :: after).Perm (q :: p :: others) := hothers.cons q
      -- neither changes the other's entry, and their keys are different
      have hd' := h before p q others (q :: after) E₁ E₂ (k, d) _ hpq hbefore
        (hall.trans (.swap p q others)) hafter hd hq
      have he' := h before q p others (q :: after) E₁ E₂ (i, e) _ hqp hbefore hall hafter he hattempt
      have hfree := key_none hfixed hrest hp hd'
      have hne : i ≠ k := by
        rintro rfl
        rw [Function.update_self] at hfree
        cases hfree
      obtain ⟨rest, hperm', hseq⟩ := ih (before ++ [q])
        (by rw [sequence_append, hbefore]; exact (congrArg (Option.bind · _) hq)) (by simpa using hperm)
        hrest hp (attempt_eq_some.mpr ⟨k, d, hd', hfree, rfl⟩)
      refine ⟨q :: rest, (hperm'.cons q).trans (.swap p q rest), ?_⟩
      have hswap : attempt target (Function.update E₁ k (some d)) q =
          some (Function.update (Function.update E₁ i (some e)) k (some d)) :=
        attempt_eq_some.mpr ⟨i, e, he', by rw [Function.update_of_ne hne]; exact hnone',
          Function.update_comm hne _ _ _⟩
      rw [sequence, hswap]
      exact hseq

/-- A round keeps it possible to end where some order ends. -/
theorem Undisturbed.sweep (h : Undisturbed target E js) (hfixed : Fixed target view)
    (before now later : List J) (hbefore : sequence target E before = some E₁)
    (hperm : (before ++ after).Perm js) (hafter : sequence target E₁ after = some E₂)
    (hsplit : after.Perm (now ++ later)) :
    ∃ before' after', sequence target E before' = some (Settle.sweep target E₁ now).2 ∧
      (before' ++ after').Perm js ∧
      sequence target (Settle.sweep target E₁ now).2 after' = some E₂ ∧
      after'.Perm ((Settle.sweep target E₁ now).1 ++ later) := by
  induction now generalizing before after E₁ later with
  | nil => exact ⟨before, after, hbefore, hperm, hafter, hsplit⟩
  | cons j now ih =>
    rw [Settle.sweep]
    cases hj : attempt target E₁ j with
    | none =>
      obtain ⟨before', after', h₁, h₂, h₃, h₄⟩ := ih before (j :: later) hbefore hperm
        hafter (hsplit.trans List.perm_middle.symm)
      exact ⟨before', after', h₁, h₂, h₃, h₄.trans List.perm_middle⟩
    | some E₃ =>
      have hmem : j ∈ after := hsplit.mem_iff.mpr (List.mem_cons_self ..)
      obtain ⟨rest, hrest, hseq⟩ := h.first hfixed before hbefore hperm hafter hmem hj
      refine ih (before ++ [j]) later ?_ ?_ hseq ((List.perm_cons j).mp (hrest.symm.trans hsplit))
      · rw [sequence_append, hbefore]
        exact congrArg (Option.bind · _) hj
      · rw [List.append_assoc]
        exact (hrest.symm.append_left before).trans hperm

theorem Undisturbed.settle (h : Undisturbed target E js) (hfixed : Fixed target view)
    {fuel : ℕ} (before : List J) {now : List J} (hbefore : sequence target E before = some E₁)
    (hperm : (before ++ after).Perm js) (hafter : sequence target E₁ after = some E₂)
    (hnow : after.Perm now) (hfuel : now.length < fuel) :
    Settle.settle target fuel E₁ now = some E₂ := by
  induction fuel generalizing before after E₁ now with
  | zero => omega
  | succ fuel ih =>
    obtain ⟨before', after', h₁, h₂, h₃, h₄⟩ :=
      h.sweep hfixed before now [] hbefore hperm hafter (by simpa using hnow)
    rw [List.append_nil] at h₄
    have hle := sweep_length_le target E₁ now
    simp only [Settle.settle]
    split_ifs with hnil hlen
    · rw [hnil] at h₄
      rw [List.perm_nil.mp h₄] at h₃
      exact h₃
    · -- what comes next in the order can be done
      cases after with
      | nil =>
        rw [List.nil_perm.mp hnow] at hnil
        exact absurd rfl hnil
      | cons j after =>
        obtain ⟨E₄, hj, -⟩ := sequence_cons_some hafter
        rw [sweep_stuck hlen j (hnow.mem_iff.mp (List.mem_cons_self ..))] at hj
        cases hj
    · exact ih before' h₁ h₂ h₃ h₄ (by omega)

/-- What is seen of an outcome. -/
def seen (view : D → N) (r : Option (Env K D)) : Option (K → Option N) :=
  r.map fun E k => (E k).map view

/-- The outcome is the same for all orders of the jobs if and only if they do not disturb
each other. -/
theorem settle_perm_iff (hlocal : Local target) (hfixed : Fixed target view) (E : Env K D)
    (js : List J) :
    (∀ ks : List J, ks.Perm js → seen view (settle target (ks.length + 1) E ks) =
      seen view (settle target (js.length + 1) E js)) ↔ Undisturbed target E js := by
  constructor
  · rintro h before p q rest after E₁ E₂ ⟨k, d⟩ E₃ hperm hbefore hafter hcomplete hd hq
    -- all orders end like the complete one
    have hok : settle target ((before ++ after).length + 1) E (before ++ after) = some E₂ := by
      have hall : sequence target E (before ++ after) = some E₂ := by
        rw [sequence_append, hbefore]
        exact hcomplete
      simp only [settle]
      have hround : sweep target E (before ++ after ++ []) = sweep target E₂ [] :=
        sweep_append hall
      rw [List.append_nil] at hround
      rw [hround, sweep, if_pos rfl]
    have hend : ∀ ks : List J, ks.Perm js → ∃ E', settle target (ks.length + 1) E ks = some E' ∧
        ∀ k, (E' k).map view = (E₂ k).map view := by
      intro ks hks
      have heq := (h ks hks).trans (h _ ((hafter.append_left before).trans hperm)).symm
      rw [hok] at heq
      obtain ⟨E', hE', hview⟩ := Option.map_eq_some_iff.mp heq
      exact ⟨E', hE', fun k => congrFun hview k⟩
    obtain ⟨Ep, hEp, hviewp⟩ := hend _ hperm
    obtain ⟨Eq, hEq, hviewq⟩ := hend (before ++ q :: p :: rest)
      (((List.Perm.swap p q rest).append_left before).trans hperm)
    -- done first, `p` adds `d`
    obtain ⟨F, k', d', hF, hF', hd', hfree, hentry⟩ : ∃ F k' d', Le E₃ F ∧ Le F Eq ∧
        target F p = some (k', d') ∧ F k' = none ∧ Eq k' = some d' := by
      have hstart : sequence target E (before ++ [q]) = some E₃ := by
        rw [sequence_append, hbefore]
        exact congrArg (Option.bind · _) hq
      rw [show before ++ q :: p :: rest = (before ++ [q]) ++ p :: rest by simp] at hEq
      obtain ⟨order, horder, hseq⟩ := settle_order _ hEq hstart
      exact exists_target hseq (horder.mem_iff.mpr (List.mem_cons_self ..))
    have hfirst : Ep k = some d := by
      have hnone : E₁ k = none :=
        key_none hfixed hcomplete (hafter.mem_iff.mpr (List.mem_cons_self ..)) hd
      have hp : attempt target E₁ p = some (Function.update E₁ k (some d)) :=
        attempt_eq_some.mpr ⟨k, d, hd, hnone, rfl⟩
      have hstart : sequence target E (before ++ [p]) =
          some (Function.update E₁ k (some d)) := by
        rw [sequence_append, hbefore]
        exact congrArg (Option.bind · _) hp
      rw [show before ++ p :: q :: rest = (before ++ [p]) ++ q :: rest by simp] at hEp
      obtain ⟨order, -, hseq⟩ := settle_order _ hEp hstart
      exact sequence_le hseq _ _ (Function.update_self ..)
    obtain rfl : k = k' := hfixed.key_eq p E₁ F _ _ hd hd'
    have hview := (hviewp k).trans (hviewq k).symm
    rw [hfirst, hentry] at hview
    obtain rfl : d = d' := hfixed.view_inj p E₁ F _ _ hd hd' (Option.some.inj hview)
    exact target_between hlocal (attempt_le hq) hF hd hd'
  · intro h ks hks
    have hcongr : ∀ ks : List J, ks.Perm js → ∀ E₂,
        settle target (js.length + 1) E js = some E₂ →
          settle target (ks.length + 1) E ks = some E₂ := by
      intro ks hks E₂ hE₂
      obtain ⟨order, horder, hseq⟩ := settle_order [] hE₂ rfl
      exact h.settle hfixed [] rfl horder hseq (horder.trans hks.symm)
        (Nat.lt_succ_self _)
    cases hjs : settle target (js.length + 1) E js with
    | some E₂ => rw [hcongr ks hks E₂ hjs]
    | none =>
      cases hks' : settle target (ks.length + 1) E ks with
      | none => rfl
      | some E₂ =>
        obtain ⟨order, horder, hseq⟩ := settle_order [] hks' rfl
        have hset := h.settle hfixed [] rfl (horder.trans hks) hseq
          (horder.trans hks) (Nat.lt_succ_self _)
        rw [hjs] at hset
        cases hset

end Roto.Settle
