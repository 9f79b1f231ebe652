import RotoCompiler.Lib.LaidCode

/-!
# Numbers that are handed out

A computation takes numbers from a counter and enters them in a list, each at most once. A
number may be entered long after it was taken; until then it is reserved for what follows.
-/

namespace Numbering

/-- The next number, the numbers that have been entered, and what else holds of the states. -/
structure Counter (S : Type) where
  ok : S → Prop
  next : S → ℕ
  entered : S → List ℕ

variable {S α β : Type} {g : Counter S} {R R₁ R₂ : Set ℕ}

/-- Numbers are entered once: new ones, and those of `R`, which have been taken before. -/
def Enters (g : Counter S) (R : Set ℕ) (m : StateT S Option α) : Prop :=
  ∀ s a s', g.ok s → (∀ n ∈ R, n < g.next s) → m s = some (a, s') →
    g.ok s' ∧ g.next s ≤ g.next s' ∧ ∃ ns : List ℕ, g.entered s' = g.entered s ++ ns ∧ ns.Nodup ∧
      ∀ n ∈ ns, n ∈ R ∨ g.next s ≤ n ∧ n < g.next s'

namespace Enters
variable {m : StateT S Option α} {k : α → StateT S Option β}

theorem keeps (h : ∀ s a s', g.ok s → m s = some (a, s') →
    g.ok s' ∧ g.next s' = g.next s ∧ g.entered s' = g.entered s) : Enters g R m := by
  intro s a s' hok _ hm
  have hs := h s a s' hok hm
  exact ⟨hs.1, hs.2.1.ge, [], by simp [hs.2.2], List.nodup_nil, by simp⟩

theorem mono (h : Enters g R₁ m) (hR : R₁ ⊆ R₂) : Enters g R₂ m := by
  intro s a s' hok hlt hm
  have hs := h s a s' hok (fun n hn => hlt n (hR hn)) hm
  obtain ⟨hok', hle, ns, hns, hnodup, hmem⟩ := hs
  refine ⟨hok', hle, ns, hns, hnodup, fun n hn => ?_⟩
  rcases hmem n hn with h | h
  · exact Or.inl (hR h)
  · exact Or.inr h

theorem bind (hm : Enters g R₁ m) (hk : ∀ s a s', m s = some (a, s') → Enters g R₂ (k a))
    (hR : ∀ n ∈ R₁, n ∉ R₂) : Enters g (R₁ ∪ R₂) (m >>= k) := by
  intro s b s' hok hlt h
  obtain ⟨a, s₁, h₁, h₂⟩ := LaidCode.Lays.bind_some h
  have hlt₁ : ∀ n ∈ R₁, n < g.next s := fun n hn => hlt n (Or.inl hn)
  have hlt₂ : ∀ n ∈ R₂, n < g.next s := fun n hn => hlt n (Or.inr hn)
  obtain ⟨hok₁, hle₁, ns₁, hns₁, hnodup₁, hmem₁⟩ := hm s a s₁ hok hlt₁ h₁
  have hlt₂' : ∀ n ∈ R₂, n < g.next s₁ := fun n hn => (hlt₂ n hn).trans_le hle₁
  obtain ⟨hok₂, hle₂, ns₂, hns₂, hnodup₂, hmem₂⟩ := hk s a s₁ h₁ s₁ b s' hok₁ hlt₂' h₂
  have hdisjoint : ∀ n ∈ ns₁, n ∉ ns₂ := by
    intro n hn₁ hn₂
    rcases hmem₁ n hn₁ with h₁ | h₁
    · rcases hmem₂ n hn₂ with h₂ | h₂
      · exact hR n h₁ h₂
      · have hn := hlt₁ n h₁
        omega
    · rcases hmem₂ n hn₂ with h₂ | h₂
      · have hn := hlt₂ n h₂
        omega
      · omega
  refine ⟨hok₂, hle₁.trans hle₂, ns₁ ++ ns₂, by rw [hns₂, hns₁, List.append_assoc], ?_, ?_⟩
  · apply List.nodup_append.mpr
    refine ⟨hnodup₁, hnodup₂, ?_⟩
    intro n hn₁ n' hn₂ heq
    rw [heq] at hn₁
    exact hdisjoint n' hn₁ hn₂
  · intro n hn
    rcases List.mem_append.mp hn with hn | hn
    · rcases hmem₁ n hn with h | h
      · exact Or.inl (Or.inl h)
      · exact Or.inr (by omega)
    · rcases hmem₂ n hn with h | h
      · exact Or.inl (Or.inr h)
      · exact Or.inr (by omega)

/-- What is reserved is entered later; of the result something is known. -/
theorem andThenOf {P : α → Prop} (hm : Enters g ∅ m) (hP : ∀ s a s', m s = some (a, s') → P a)
    (hk : ∀ a, P a → Enters g R (k a)) : Enters g R (m >>= k) := by
  have h := bind hm (fun s a s' ha => hk a (hP s a s' ha))
    (fun n hn => (Set.notMem_empty n hn).elim)
  rw [Set.empty_union] at h
  exact h

theorem andThen (hm : Enters g ∅ m) (hk : ∀ a, Enters g R (k a)) : Enters g R (m >>= k) :=
  andThenOf hm (fun _ _ _ _ => trivial) fun a _ => hk a

/-- What is reserved is entered at once. -/
theorem before (hm : Enters g R m) (hk : ∀ a, Enters g ∅ (k a)) : Enters g R (m >>= k) := by
  have h := bind hm (fun _ a _ _ => hk a) (fun n _ => Set.notMem_empty n)
  rw [Set.union_empty] at h
  exact h

/-- A number is taken from the counter. -/
theorem reserve {f : ℕ → α} (hm : ∀ s a s', g.ok s → m s = some (a, s') →
      g.ok s' ∧ g.next s' = g.next s + 1 ∧ g.entered s' = g.entered s ∧ a = f (g.next s))
    (hk : ∀ n, Enters g (insert n R) (k (f n))) : Enters g R (m >>= k) := by
  intro s b s' hok hlt h
  obtain ⟨a, s₁, h₁, h₂⟩ := LaidCode.Lays.bind_some h
  obtain ⟨hok₁, hnext, hentered, ha⟩ := hm s a s₁ hok h₁
  rw [ha] at h₂
  have hlt₁ : ∀ n ∈ insert (g.next s) R, n < g.next s₁ := by
    intro n hn
    rcases hn with hn | hn
    · omega
    · have hn := hlt n hn
      omega
  obtain ⟨hok', hle, ns, hns, hnodup, hmem⟩ := hk (g.next s) s₁ b s' hok₁ hlt₁ h₂
  refine ⟨hok', by omega, ns, by rw [hns, hentered], hnodup, fun n hn => ?_⟩
  rcases hmem n hn with (h | h) | h
  · exact Or.inr (by omega)
  · exact Or.inl h
  · exact Or.inr (by omega)

/-- After a run no number has been entered twice, and the next one has not been entered, if
so it was before. What is new was not taken before the run. -/
theorem run (hm : Enters g ∅ m) {s s' : S} {a : α} (hok : g.ok s)
    (hs : (g.entered s).Nodup) (hbelow : ∀ n ∈ g.entered s, n < g.next s)
    (h : m s = some (a, s')) :
    g.ok s' ∧ (g.entered s').Nodup ∧ (∀ n ∈ g.entered s', n < g.next s') ∧
      ∀ n ∈ g.entered s', n ∈ g.entered s ∨ g.next s ≤ n := by
  obtain ⟨hok', hle, ns, hns, hnodup, hmem⟩ :=
    hm s a s' hok (fun n hn => (Set.notMem_empty n hn).elim) h
  have hnew : ∀ n ∈ ns, g.next s ≤ n ∧ n < g.next s' := by
    intro n hn
    rcases hmem n hn with h | h
    · exact (Set.notMem_empty n h).elim
    · exact h
  rw [hns]
  refine ⟨hok', ?_, ?_, ?_⟩
  · apply List.nodup_append.mpr
    refine ⟨hs, hnodup, ?_⟩
    intro n hn n' hn' heq
    have hlt := hbelow n hn
    have hge := hnew n' hn'
    omega
  · intro n hn
    rcases List.mem_append.mp hn with hn | hn
    · have hlt := hbelow n hn
      omega
    · exact (hnew n hn).2
  · intro n hn
    rcases List.mem_append.mp hn with hn | hn
    · exact Or.inl hn
    · exact Or.inr (hnew n hn).1

end Enters

end Numbering
