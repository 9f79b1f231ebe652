import Mathlib.Init

/-!
# State machines that fail and leave a trace

A step may panic, which ends the run, or fail with an error, which leaves the state it has
reached. What a step reports is collected in a trace.
-/

/-- The answer of a step, the state it leaves behind, and what it reported; `none` is a
panic. -/
def Traced (S C ε α : Type) : Type := S → Option (Except ε α × S × List C)

namespace Traced

variable {S C ε α β : Type}

def run (m : Traced S C ε α) (s : S) : Option (Except ε α × S × List C) := m s

def ofPure (a : α) : Traced S C ε α := fun s => some (.ok a, s, [])

def andThen (m : Traced S C ε α) (k : α → Traced S C ε β) : Traced S C ε β := fun s =>
  match m s with
  | none => none
  | some (.error e, s, trace) => some (.error e, s, trace)
  | some (.ok a, s, trace) =>
    match k a s with
    | none => none
    | some (r, s, trace') => some (r, s, trace ++ trace')

instance : Monad (Traced S C ε) where
  pure := ofPure
  bind := andThen

def fail (e : ε) : Traced S C ε α := fun s => some (.error e, s, [])

def abort : Traced S C ε α := fun _ => none

def get : Traced S C ε S := fun s => some (.ok s, s, [])

def modify (f : S → S) : Traced S C ε Unit := fun s => some (.ok (), f s, [])

def report (c : C) : Traced S C ε Unit := fun s => some (.ok (), s, [c])

/-- Fail or go on with an answer. -/
def ofExcept : Except ε α → Traced S C ε α
  | .ok a => ofPure a
  | .error e => fail e

/-- Panic or go on with an answer. -/
def unwrap : Option α → Traced S C ε α
  | some a => ofPure a
  | none => abort

/-! ### Runs of steps -/

/-- The first step ends the run with an error, or the second one ends it. -/
theorem bind_cases {m : Traced S C ε α} {k : α → Traced S C ε β} {s s' : S} {r : Except ε β}
    {trace : List C} (h : (m >>= k).run s = some (r, s', trace)) :
    (∃ e, m.run s = some (.error e, s', trace) ∧ r = .error e) ∨
      ∃ a s₁ trace₁ trace₂, m.run s = some (.ok a, s₁, trace₁) ∧
        (k a).run s₁ = some (r, s', trace₂) ∧ trace = trace₁ ++ trace₂ := by
  change andThen m k s = _ at h
  unfold andThen at h
  cases hms : m s with
  | none => simp [hms] at h
  | some answer =>
    obtain ⟨r₁, s₁, trace₁⟩ := answer
    cases r₁ with
    | error e =>
      simp only [hms] at h
      obtain ⟨rfl, hrest⟩ := Prod.mk.inj (Option.some.inj h)
      obtain ⟨rfl, rfl⟩ := Prod.mk.inj hrest
      exact .inl ⟨e, hms, rfl⟩
    | ok a =>
      simp only [hms] at h
      cases hks : k a s₁ with
      | none => simp [hks] at h
      | some answer =>
        obtain ⟨r₂, s₂, trace₂⟩ := answer
        simp only [hks] at h
        obtain ⟨rfl, hrest⟩ := Prod.mk.inj (Option.some.inj h)
        obtain ⟨rfl, rfl⟩ := Prod.mk.inj hrest
        exact .inr ⟨a, s₁, trace₁, trace₂, hms, hks, rfl⟩

theorem ofPure_run {a : α} {s s' : S} {r : Except ε α} {trace : List C}
    (h : (ofPure a : Traced S C ε α).run s = some (r, s', trace)) :
    r = .ok a ∧ s' = s ∧ trace = [] := by
  obtain ⟨rfl, hrest⟩ := Prod.mk.inj (Option.some.inj h)
  obtain ⟨rfl, rfl⟩ := Prod.mk.inj hrest
  exact ⟨rfl, rfl, rfl⟩

theorem fail_run {e : ε} {s s' : S} {r : Except ε α} {trace : List C}
    (h : (fail e : Traced S C ε α).run s = some (r, s', trace)) :
    r = .error e ∧ s' = s ∧ trace = [] := by
  obtain ⟨rfl, hrest⟩ := Prod.mk.inj (Option.some.inj h)
  obtain ⟨rfl, rfl⟩ := Prod.mk.inj hrest
  exact ⟨rfl, rfl, rfl⟩

theorem modify_run {f : S → S} {s s' : S} {r : Except ε Unit} {trace : List C}
    (h : (modify f : Traced S C ε Unit).run s = some (r, s', trace)) :
    r = .ok () ∧ s' = f s ∧ trace = [] := by
  obtain ⟨rfl, hrest⟩ := Prod.mk.inj (Option.some.inj h)
  obtain ⟨rfl, rfl⟩ := Prod.mk.inj hrest
  exact ⟨rfl, rfl, rfl⟩

theorem get_bind_run (k : S → Traced S C ε β) (s : S) :
    (get >>= k : Traced S C ε β).run s = (k s).run s := by
  show andThen get k s = k s s
  unfold andThen
  simp only [get]
  cases k s s <;> rfl

theorem report_bind_run (c : C) (k : Unit → Traced S C ε β) (s : S) :
    (report c >>= k : Traced S C ε β).run s =
      ((k ()).run s).map fun p => (p.1, p.2.1, c :: p.2.2) := by
  show andThen (report c) k s = ((k ()) s).map _
  unfold andThen
  simp only [report]
  cases k () s <;> rfl

theorem pure_bind (a : α) (k : α → Traced S C ε β) : (pure a >>= k) = k a := by
  funext s
  show andThen (ofPure a) k s = k a s
  unfold andThen
  simp only [ofPure]
  cases k a s <;> rfl

theorem bind_assoc {γ : Type} (m : Traced S C ε α) (k : α → Traced S C ε β)
    (l : β → Traced S C ε γ) : (m >>= k) >>= l = m >>= fun a => k a >>= l := by
  funext s
  show andThen (andThen m k) l s = andThen m (fun a => andThen (k a) l) s
  unfold andThen
  rcases m s with _ | ⟨e | a, s₁, trace₁⟩
  · rfl
  · rfl
  · simp only
    rcases k a s₁ with _ | ⟨e | b, s₂, trace₂⟩
    · rfl
    · rfl
    · simp only
      rcases l b s₂ with _ | ⟨r, s₃, trace₃⟩
      · rfl
      · simp only [List.append_assoc]

/-! ### Invariants -/

/-- From a state with `P`, a step that reports nothing but what `ok` allows ends in a state
with `P`, also when it fails. -/
def Keeps (ok : C → Prop) (P : S → Prop) (m : Traced S C ε α) : Prop :=
  ∀ s r s' trace, P s → m.run s = some (r, s', trace) → (∀ c ∈ trace, ok c) → P s'

variable {ok : C → Prop} {P : S → Prop}

theorem keeps_ofPure (a : α) : Keeps ok P (ofPure a : Traced S C ε α) := by
  intro s r s' trace hs h _
  rw [(ofPure_run h).2.1]
  exact hs

theorem keeps_fail (e : ε) : Keeps ok P (fail e : Traced S C ε α) := by
  intro s r s' trace hs h _
  rw [(fail_run h).2.1]
  exact hs

theorem keeps_abort : Keeps ok P (abort : Traced S C ε α) := by
  intro s r s' trace _ h
  cases h

theorem keeps_ofExcept (x : Except ε α) : Keeps ok P (ofExcept x : Traced S C ε α) := by
  cases x with
  | ok a => exact keeps_ofPure a
  | error e => exact keeps_fail e

theorem keeps_unwrap (x : Option α) : Keeps ok P (unwrap x : Traced S C ε α) := by
  cases x with
  | some a => exact keeps_ofPure a
  | none => exact keeps_abort

theorem keeps_bind {m : Traced S C ε α} {k : α → Traced S C ε β} (hm : m.Keeps ok P)
    (hk : ∀ a, (k a).Keeps ok P) : Keeps ok P (m >>= k) := by
  intro s r s' trace hs h hok
  rcases bind_cases h with ⟨e, hms, -⟩ | ⟨a, s₁, trace₁, trace₂, hms, hks, rfl⟩
  · exact hm s _ _ _ hs hms hok
  · have hmid := hm s _ _ _ hs hms fun c hc => hok c (List.mem_append_left _ hc)
    exact hk a s₁ _ _ _ hmid hks fun c hc => hok c (List.mem_append_right _ hc)

/-- A step that starts with a look at the state. -/
theorem keeps_get_bind {k : S → Traced S C ε β} (hk : ∀ s, (k s).Keeps ok P) :
    Keeps ok P (get >>= k) := by
  intro s r s' trace hs h hok
  rw [get_bind_run] at h
  exact hk s s r s' trace hs h hok

end Traced
