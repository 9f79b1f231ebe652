import Mathlib.Algebra.Ring.Nat
import Mathlib.Data.List.Forall2
import Mathlib.Algebra.Order.BigOperators.Group.List

/-!
# Worklists

A queue of keys that is worked off from the front. Processing a key makes a product and may
put more keys at the back, and a key that was processed before is skipped. Processing can
fail, and then the whole run fails.
-/

namespace Roto

structure Worklist (α β σ : Type) where
  queue : σ → List α
  /-- Takes the first key off. -/
  rest : σ → σ
  process : α → σ → Option (β × σ)

namespace Worklist
variable {α β σ : Type} [DecidableEq α] (W : Worklist α β σ)

/-- The run in at most `fuel` rounds; there is nothing if that is not enough. -/
def run : ℕ → List α → σ → Option (List β × σ)
  | 0, _, _ => none
  | fuel + 1, seen, s =>
    match W.queue s with
    | [] => some ([], s)
    | a :: _ =>
      if a ∈ seen then run fuel seen (W.rest s)
      else do
        let (b, s₁) ← W.process a (W.rest s)
        let (bs, s₂) ← run fuel (a :: seen) s₁
        return (b :: bs, s₂)

/-- The queue is a queue: processing takes no keys off it. -/
structure Lawful : Prop where
  rest : ∀ s, W.queue (W.rest s) = (W.queue s).tail
  process : ∀ a s b s', W.process a s = some (b, s') → W.queue s ⊆ W.queue s'

/-- `b` is the product of `a`, and the keys that `a` needs are among `keys`. -/
def Makes (keys : List α) (a : α) (b : β) : Prop :=
  ∃ s s', W.process a s = some (b, s') ∧ ∀ c ∈ W.queue s', c ∈ keys

variable {W}

omit [DecidableEq α] in
theorem Makes.mono {keys keys' : List α} {a : α} {b : β} (h : W.Makes keys a b)
    (hsub : ∀ c ∈ keys, c ∈ keys') : W.Makes keys' a b := by
  obtain ⟨s, s', hprocess, hkeys⟩ := h
  exact ⟨s, s', hprocess, fun c hc => hsub c (hkeys c hc)⟩

theorem run_step {fuel : ℕ} {seen : List α} {s : σ} {r : List β × σ}
    (h : W.run fuel seen s = some r) :
    (W.queue s = [] ∧ r.1 = []) ∨
    ∃ fuel' a tail, fuel = fuel' + 1 ∧ W.queue s = a :: tail ∧
      ((a ∈ seen ∧ W.run fuel' seen (W.rest s) = some r) ∨
      (a ∉ seen ∧ ∃ b s₁ bs s₂, W.process a (W.rest s) = some (b, s₁) ∧
        W.run fuel' (a :: seen) s₁ = some (bs, s₂) ∧ r = (b :: bs, s₂))) := by
  cases fuel with
  | zero => cases h
  | succ fuel =>
    rw [run] at h
    cases hq : W.queue s with
    | nil =>
      simp only [hq] at h
      exact .inl ⟨rfl, (congrArg Prod.fst (Option.some.inj h)).symm⟩
    | cons a tail =>
      simp only [hq] at h
      refine .inr ⟨fuel, a, tail, rfl, rfl, ?_⟩
      split_ifs at h with hseen
      · exact .inl ⟨hseen, h⟩
      · obtain ⟨⟨b, s₁⟩, hprocess, h⟩ := Option.bind_eq_some_iff.mp h
        obtain ⟨⟨bs, s₂⟩, hrun, h⟩ := Option.bind_eq_some_iff.mp h
        exact .inr ⟨hseen, b, s₁, bs, s₂, hprocess, hrun, (Option.some.inj h).symm⟩

/-- A run makes the product of each key that was in the queue or that one of the products
needs, each once, and nothing else. -/
theorem run_makes (hW : W.Lawful) {fuel : ℕ} {seen : List α} {s : σ} {bs : List β} {s' : σ}
    (h : W.run fuel seen s = some (bs, s')) :
    ∃ keys, List.Forall₂ (W.Makes (seen ++ keys)) keys bs ∧
      (∀ a ∈ W.queue s, a ∈ seen ++ keys) ∧ keys.Nodup ∧ ∀ a ∈ keys, a ∉ seen := by
  induction fuel generalizing seen s bs s' with
  | zero => cases h
  | succ fuel ih =>
    obtain ⟨hq, hbs⟩ | ⟨_, a, tail, heq, hq, hcase⟩ := run_step h
    · refine ⟨[], ?_, ?_, .nil, fun a ha => nomatch ha⟩
      · rw [show bs = [] from hbs]
        exact .nil
      · rw [hq]
        simp
    · obtain rfl : _ = fuel := (Nat.succ.inj heq).symm
      have hrest : W.queue (W.rest s) = tail := by rw [hW.rest, hq, List.tail_cons]
      rcases hcase with ⟨hseen, hrun⟩ | ⟨hseen, b, s₁, bs₁, s₂, hprocess, hrun, hr⟩
      · obtain ⟨keys, hmakes, hqueue, hnew⟩ := ih hrun
        refine ⟨keys, hmakes, fun c hc => ?_, hnew⟩
        rw [hq] at hc
        rcases List.mem_cons.mp hc with rfl | hc
        · exact List.mem_append_left _ hseen
        · exact hqueue c (hrest ▸ hc)
      · obtain ⟨rfl, rfl⟩ := Prod.mk.inj hr
        obtain ⟨keys, hmakes, hqueue, hnodup, hfresh⟩ := ih hrun
        have hkept := hW.process _ _ _ _ hprocess
        have hsub : ∀ c ∈ a :: seen ++ keys, c ∈ seen ++ a :: keys := by
          intro c hc
          simp only [List.cons_append, List.mem_cons, List.mem_append] at hc ⊢
          tauto
        have ha : a ∉ keys := fun hmem => hfresh a hmem List.mem_cons_self
        refine ⟨a :: keys, .cons ⟨_, _, hprocess, fun c hc => hsub c (hqueue c hc)⟩ ?_, ?_,
          List.nodup_cons.mpr ⟨ha, hnodup⟩, ?_⟩
        · exact hmakes.imp fun _ _ hm => hm.mono hsub
        · intro c hc
          rw [hq] at hc
          rcases List.mem_cons.mp hc with rfl | hc
          · simp
          · refine hsub c (hqueue c (hkept ?_))
            rw [hrest]
            exact hc
        · intro c hc
          rcases List.mem_cons.mp hc with rfl | hc
          · exact hseen
          · exact fun hmem => hfresh c hc (List.mem_cons_of_mem _ hmem)

/-- What `rest` and the processing of a key keep, a run keeps. -/
theorem run_keeps {I : σ → Prop} (hrest : ∀ s, I s → I (W.rest s))
    (hprocess : ∀ a s b s', W.process a s = some (b, s') → I s → I s')
    {fuel : ℕ} {seen : List α} {s : σ} {bs : List β} {s' : σ}
    (h : W.run fuel seen s = some (bs, s')) (hs : I s) : I s' := by
  induction fuel generalizing seen s bs with
  | zero => cases h
  | succ fuel ih =>
    rw [run] at h
    split at h
    · obtain ⟨-, rfl⟩ := Prod.mk.inj (Option.some.inj h)
      exact hs
    · split_ifs at h
      · exact ih h (hrest _ hs)
      · obtain ⟨⟨b, s₁⟩, hb, h⟩ := Option.bind_eq_some_iff.mp h
        obtain ⟨⟨bs₁, s₂⟩, hrun, h⟩ := Option.bind_eq_some_iff.mp h
        obtain ⟨-, rfl⟩ := Prod.mk.inj (Option.some.inj h)
        exact ih hrun (hprocess _ _ _ _ hb (hrest _ hs))

/-- A run ends, with the products of good keys only, if a good key can be processed and only
needs good keys that together weigh less. -/
theorem run_some (hrest : ∀ s, W.queue (W.rest s) = (W.queue s).tail) {good : α → Prop}
    {weight : α → ℕ}
    (hprocess : ∀ a s, good a → ∃ b s' new, W.process a s = some (b, s') ∧
      W.queue s' = W.queue s ++ new ∧ (∀ c ∈ new, good c) ∧ (new.map weight).sum < weight a)
    {fuel : ℕ} {seen : List α} {s : σ} (hgood : ∀ a ∈ W.queue s, good a)
    (hfuel : ((W.queue s).map weight).sum < fuel) :
    ∃ bs s', W.run fuel seen s = some (bs, s') ∧
      ∀ b ∈ bs, ∃ a s₁ s₂, good a ∧ W.process a s₁ = some (b, s₂) := by
  induction fuel generalizing seen s with
  | zero => omega
  | succ fuel ih =>
    rw [run]
    cases hq : W.queue s with
    | nil => exact ⟨[], s, rfl, fun b hb => nomatch hb⟩
    | cons a tail =>
      have ha : good a := hgood a (hq ▸ List.mem_cons_self)
      have htail : ∀ c ∈ tail, good c := fun c hc => hgood c (hq ▸ List.mem_cons_of_mem a hc)
      have hqueue : W.queue (W.rest s) = tail := by rw [hrest, hq, List.tail_cons]
      obtain ⟨b, s₁, new, hb, hnew, hgoodNew, hlt⟩ := hprocess a (W.rest s) ha
      rw [hq, List.map_cons, List.sum_cons] at hfuel
      by_cases hseen : a ∈ seen
      · simp only [if_pos hseen]
        exact ih (hqueue.symm ▸ htail) (by rw [hqueue]; omega)
      · simp only [if_neg hseen, hb]
        have hgood₁ : ∀ c ∈ W.queue s₁, good c := by
          rw [hnew, hqueue]
          intro c hc
          rcases List.mem_append.mp hc with hc | hc
          · exact htail c hc
          · exact hgoodNew c hc
        have hsum : ((W.queue s₁).map weight).sum < fuel := by
          rw [hnew, hqueue, List.map_append, List.sum_append]
          omega
        obtain ⟨bs, s₂, hrun, hbs⟩ := @ih (a :: seen) s₁ hgood₁ hsum
        refine ⟨b :: bs, s₂, ?_, ?_⟩
        · simp only [bind, Option.bind, hrun]
          rfl
        · intro c hc
          rcases List.mem_cons.mp hc with rfl | hc
          · exact ⟨a, _, s₁, ha, hb⟩
          · exact hbs c hc

end Worklist

end Roto
