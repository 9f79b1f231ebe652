import Mathlib.Data.Set.Insert
import Mathlib.Data.List.Induction
import Mathlib.Data.List.Nodup

/-!
# Code that is laid out with fresh labels

A generator appends instructions and starts blocks, under labels that it counts up. Code in a
block that nothing leads to may lead anywhere; the rest leads to blocks that are there. The
rules follow the generator: each reserved label is laid once, behind the end of a block.
-/

namespace LaidCode

inductive Event (I : Type) where
  | inst (i : I)
  | block (l : ℕ)

variable {I S α β : Type}

section Events
variable (targets : I → Option (List ℕ))

/-- The labels of the blocks that are started. -/
def placed : List (Event I) → List ℕ
  | [] => []
  | .inst _ :: E => placed E
  | .block l :: E => l :: placed E

/-- Whether the last block has ended, if `t` says it of the block before. -/
def ends (t : Bool) : List (Event I) → Bool
  | [] => t
  | .inst i :: E => ends (targets i).isSome E
  | .block _ :: E => ends false E

/-- Every block is started right behind the end of another one. -/
def Sealed (t : Bool) : List (Event I) → Prop
  | [] => True
  | .inst i :: E => Sealed (targets i).isSome E
  | .block _ :: E => t = true ∧ Sealed false E

/-- Code in blocks that are `live` leads to `allowed` blocks only. -/
def Keeps (live allowed : Set ℕ) (here : Prop) : List (Event I) → Prop
  | [] => True
  | .inst i :: E => (here → ∀ ls, targets i = some ls → ∀ l ∈ ls, l ∈ allowed) ∧
      Keeps live allowed here E
  | .block l :: E => Keeps live allowed (l ∈ live) E

theorem placed_append (E F : List (Event I)) : placed (E ++ F) = placed E ++ placed F := by
  induction E with
  | nil => rfl
  | cons e E ih => cases e <;> simp [placed, ih]

theorem placed_insts (is : List I) : placed (is.map Event.inst) = [] := by
  induction is with
  | nil => rfl
  | cons i is ih => simpa [placed] using ih

theorem ends_append (t : Bool) (E F : List (Event I)) :
    ends targets t (E ++ F) = ends targets (ends targets t E) F := by
  induction E generalizing t with
  | nil => rfl
  | cons e E ih => cases e <;> simp [ends, ih]

theorem sealed_append (t : Bool) (E F : List (Event I)) :
    Sealed targets t (E ++ F) ↔ Sealed targets t E ∧ Sealed targets (ends targets t E) F := by
  induction E generalizing t with
  | nil => simp [Sealed, ends]
  | cons e E ih => cases e <;> simp [Sealed, ends, ih, and_assoc]

theorem sealed_insts (t : Bool) (is : List I) : Sealed targets t (is.map Event.inst) := by
  induction is generalizing t with
  | nil => trivial
  | cons i is ih => exact ih _

variable {targets}

theorem Sealed.weaken {E : List (Event I)} (h : Sealed targets false E) (t : Bool) :
    Sealed targets t E := by
  cases E with
  | nil => trivial
  | cons e E =>
    cases e with
    | inst i => exact h
    | block l => exact absurd h.1 (by decide)

theorem ends_weaken {E : List (Event I)} (h : ends targets false E = true) (t : Bool) :
    ends targets t E = true := by
  cases E with
  | nil => cases h
  | cons e E => cases e <;> exact h

variable {live live' allowed allowed' : Set ℕ} {here here' : Prop}

theorem Keeps.dead (allowed : Set ℕ) (hhere : ¬ here) (E : List (Event I))
    (hlive : ∀ l ∈ placed E, l ∉ live) : Keeps targets live allowed here E := by
  induction E generalizing here with
  | nil => trivial
  | cons e E ih =>
    cases e with
    | inst i => exact ⟨fun h => absurd h hhere, ih hhere hlive⟩
    | block l =>
      have hl := List.forall_mem_cons.mp hlive
      exact ih hl.1 hl.2

/-- Only the started blocks matter. -/
theorem Keeps.imp {E : List (Event I)} (h : Keeps targets live allowed here E)
    (hhere : here' → here) (hlive : ∀ l ∈ placed E, l ∈ live' → l ∈ live)
    (hallowed : allowed ⊆ allowed') : Keeps targets live' allowed' here' E := by
  induction E generalizing here here' with
  | nil => trivial
  | cons e E ih =>
    cases e with
    | inst i =>
      exact ⟨fun hh ls hls l hl => hallowed (h.1 (hhere hh) ls hls l hl),
        ih h.2 hhere hlive⟩
    | block l =>
      have hl := List.forall_mem_cons.mp hlive
      exact ih h hl.1 hl.2

/-- Whether the block at the end is live. -/
def stillLive (live : Set ℕ) (now : Prop) : List (Event I) → Prop
  | [] => now
  | .inst _ :: E => stillLive live now E
  | .block l :: E => stillLive live (l ∈ live) E

theorem keeps_append {E F : List (Event I)} :
    Keeps targets live allowed here (E ++ F) ↔ Keeps targets live allowed here E ∧
      Keeps targets live allowed (stillLive live here E) F := by
  induction E generalizing here with
  | nil => simp [Keeps, stillLive]
  | cons e E ih => cases e <;> simp [Keeps, stillLive, ih, and_assoc]

/-! ### Blocks -/

section Blocks
variable {B : Type} (label : B → ℕ) (code : B → List I)

def blockEvents (b : B) : List (Event I) := .block (label b) :: (code b).map Event.inst

theorem placed_blocks (bs : List B) : placed (bs.flatMap (blockEvents label code)) = bs.map label := by
  induction bs with
  | nil => rfl
  | cons b bs ih =>
    rw [List.flatMap_cons, placed_append, ih]
    simp [blockEvents, placed, placed_insts]

theorem ends_insts {is : List I} (h : ends targets false (is.map Event.inst) = true) :
    ∃ is' i, is = is' ++ [i] ∧ (targets i).isSome := by
  induction is using List.reverseRecOn with
  | nil => cases h
  | append_singleton is i _ =>
    rw [List.map_append, ends_append] at h
    exact ⟨is, i, rfl, h⟩

/-- If every block is started behind the end of another one, and the last one ends, all end. -/
theorem sealed_blocks {t : Bool} {bs : List B}
    (hsealed : Sealed targets t (bs.flatMap (blockEvents label code)))
    (hends : ends targets t (bs.flatMap (blockEvents label code)) = true) :
    t = true ∧ ∀ b ∈ bs, ∃ is i, code b = is ++ [i] ∧ (targets i).isSome := by
  induction bs generalizing t with
  | nil => exact ⟨hends, fun b hb => by cases hb⟩
  | cons b bs ih =>
    rw [List.flatMap_cons, sealed_append] at hsealed
    rw [List.flatMap_cons, ends_append] at hends
    obtain ⟨hlast, hrest⟩ := ih hsealed.2 hends
    exact ⟨hsealed.1.1, List.forall_mem_cons.mpr ⟨ends_insts hlast, hrest⟩⟩

theorem keeps_insts {live allowed : Set ℕ} {here : Prop} (is : List I) :
    Keeps targets live allowed here (is.map Event.inst) ↔
      (here → ∀ i ∈ is, ∀ ls, targets i = some ls → ∀ l ∈ ls, l ∈ allowed) := by
  induction is with
  | nil => simp [Keeps]
  | cons i is ih =>
    rw [List.map_cons, Keeps, ih, ← imp_and]
    simp

theorem keeps_blocks {live allowed : Set ℕ} {here : Prop} {bs : List B} :
    Keeps targets live allowed here (bs.flatMap (blockEvents label code)) ↔
      ∀ b ∈ bs, label b ∈ live → ∀ i ∈ code b, ∀ ls, targets i = some ls → ∀ l ∈ ls,
        l ∈ allowed := by
  induction bs generalizing here with
  | nil => simp [Keeps]
  | cons b bs ih =>
    rw [List.flatMap_cons, keeps_append, ih, List.forall_mem_cons]
    refine and_congr_left fun _ => ?_
    exact keeps_insts (code b)

end Blocks

end Events

/-! ### Fragments -/

/-- Code that lays the reserved labels `R` and fresh ones from `n` on. If it is `alive`, what
is live in it leads to live blocks in it and to labels of `M`; those of them that it lays are
live. -/
structure Fragment (targets : I → Option (List ℕ)) (alive : Prop) (M R : Set ℕ) (n n' : ℕ)
    (E : List (Event I)) : Prop where
  le : n ≤ n'
  nodup : (placed E).Nodup
  mem : ∀ l ∈ placed E, l ∈ R ∨ n ≤ l ∧ l < n'
  all : ∀ l ∈ R, l ∈ placed E
  live : alive → ∃ live : Set ℕ, (∀ l ∈ live, l ∈ placed E) ∧ (∀ l ∈ placed E, l ∈ M → l ∈ live) ∧
    Keeps targets live (live ∪ M) True E

variable {targets : I → Option (List ℕ)} {alive : Prop} {M R R₁ R₂ : Set ℕ} {n n' n₁ n₂ : ℕ}
  {E E₁ E₂ : List (Event I)}

theorem Fragment.insts (is : List I)
    (h : alive → ∀ i ∈ is, ∀ ls, targets i = some ls → ∀ l ∈ ls, l ∈ M) :
    Fragment targets alive M ∅ n n (is.map Event.inst) where
  le := le_rfl
  nodup := by rw [placed_insts]; exact List.nodup_nil
  mem := by rw [placed_insts]; intro l hl; cases hl
  all := by intro l hl; cases hl
  live ha := by
    refine ⟨∅, fun l hl => (Set.notMem_empty l hl).elim, ?_, ?_⟩
    · rw [placed_insts]
      intro l hl
      cases hl
    · have hi := h ha
      clear h
      induction is with
      | nil => trivial
      | cons i is ih =>
        have hcons := List.forall_mem_cons.mp hi
        exact ⟨fun _ ls hls l hl => Or.inr (hcons.1 ls hls l hl), ih hcons.2⟩

theorem Fragment.block (l : ℕ) : Fragment targets alive M {l} n n [.block l] where
  le := le_rfl
  nodup := List.nodup_singleton l
  mem _ hl' := Or.inl (List.mem_singleton.mp hl')
  all _ hl' := List.mem_singleton.mpr hl'
  live _ := ⟨{l' | l' = l}, fun _ hl' => List.mem_singleton.mpr hl',
    fun _ hl' _ => List.mem_singleton.mp hl', trivial⟩

theorem Fragment.append (h₁ : Fragment targets alive M R₁ n n₁ E₁)
    (h₂ : Fragment targets alive M R₂ n₁ n₂ E₂) (hR : ∀ l ∈ R₁, l ∉ R₂)
    (hn : ∀ l ∈ R₁ ∪ R₂, l < n) : Fragment targets alive M (R₁ ∪ R₂) n n₂ (E₁ ++ E₂) := by
  have hapart : ∀ l ∈ placed E₁, l ∉ placed E₂ := by
    intro l hl₁ hl₂
    have hle := h₁.le
    rcases h₁.mem l hl₁ with hr₁ | hr₁
    · have hlt := hn l (Or.inl hr₁)
      rcases h₂.mem l hl₂ with hr₂ | hr₂
      · exact hR l hr₁ hr₂
      · omega
    · rcases h₂.mem l hl₂ with hr₂ | hr₂
      · have hlt := hn l (Or.inr hr₂)
        omega
      · omega
  constructor
  · exact h₁.le.trans h₂.le
  · rw [placed_append]
    exact List.nodup_append.mpr ⟨h₁.nodup, h₂.nodup, fun a ha b hb hab =>
      hapart a ha (hab ▸ hb)⟩
  · have hle₁ := h₁.le
    have hle₂ := h₂.le
    intro l hl
    rw [placed_append] at hl
    rcases List.mem_append.mp hl with hl | hl
    · rcases h₁.mem l hl with hr | hr
      · exact Or.inl (Or.inl hr)
      · exact Or.inr ⟨hr.1, by omega⟩
    · rcases h₂.mem l hl with hr | hr
      · exact Or.inl (Or.inr hr)
      · exact Or.inr ⟨by omega, hr.2⟩
  · intro l hl
    rw [placed_append]
    rcases hl with hl | hl
    · exact List.mem_append_left _ (h₁.all l hl)
    · exact List.mem_append_right _ (h₂.all l hl)
  · intro ha
    obtain ⟨live₁, hin₁, hM₁, hkeeps₁⟩ := h₁.live ha
    obtain ⟨live₂, hin₂, hM₂, hkeeps₂⟩ := h₂.live ha
    refine ⟨live₁ ∪ live₂, ?_, ?_, ?_⟩
    · intro l hl
      rw [placed_append]
      rcases hl with hl | hl
      · exact List.mem_append_left _ (hin₁ l hl)
      · exact List.mem_append_right _ (hin₂ l hl)
    · intro l hl hM
      rw [placed_append] at hl
      rcases List.mem_append.mp hl with hl | hl
      · exact Or.inl (hM₁ l hl hM)
      · exact Or.inr (hM₂ l hl hM)
    · apply keeps_append.mpr
      constructor
      · refine hkeeps₁.imp (fun h => h) ?_ ?_
        · intro l hl hlive
          rcases hlive with hlive | hlive
          · exact hlive
          · exact absurd (hin₂ l hlive) (hapart l hl)
        · exact Set.union_subset_union_left M Set.subset_union_left
      · refine hkeeps₂.imp (fun _ => trivial) ?_ ?_
        · intro l hl hlive
          rcases hlive with hlive | hlive
          · exact absurd hl (hapart l (hin₁ l hlive))
          · exact hlive
        · exact Set.union_subset_union_left M Set.subset_union_right

/-- Code behind a label that nothing leads to. -/
theorem Fragment.ofDead (h : Fragment targets False M R n n' (.block l :: E)) (hR : ∀ l ∈ R, l ∉ M)
    (hM : ∀ l ∈ M, l < n) : Fragment targets alive M R n n' (.block l :: E) where
  le := h.le
  nodup := h.nodup
  mem := h.mem
  all := h.all
  live _ := by
    refine ⟨∅, fun l hl => (Set.notMem_empty l hl).elim, ?_, ?_⟩
    · intro l' hl' hl'M
      exfalso
      rcases h.mem l' hl' with hr | hr
      · exact hR l' hr hl'M
      · have hlt := hM l' hl'M
        omega
    · exact Keeps.dead _ (Set.notMem_empty l) E fun l' _ => Set.notMem_empty l'

/-! ### Generators -/

/-- A generator's state has the code that was laid, and the next label. -/
structure Generator (S I : Type) where
  events : S → List (Event I)
  next : S → ℕ

/-- From a state where `M` and `R` have been handed out, a generator lays the labels of `R`.
The block it starts in has ended if `t`, and the one it stops in if `t'`. -/
def Lays (g : Generator S I) (targets : I → Option (List ℕ)) (alive : Prop) (M R : Set ℕ)
    (t t' : Bool) (m : StateT S Option α) : Prop :=
  ∀ s a s', (∀ l ∈ M ∪ R, l < g.next s) → m s = some (a, s') →
    ∃ E, g.events s' = g.events s ++ E ∧ Fragment targets alive M R (g.next s) (g.next s') E ∧
      Sealed targets t E ∧ (t' = true → ends targets t E = true)

namespace Lays
variable {g : Generator S I} {t t' t₁ : Bool} {m : StateT S Option α} {k : α → StateT S Option β}

theorem bind_some {s : S} {r : β × S} (h : (m >>= k) s = some r) :
    ∃ a s₁, m s = some (a, s₁) ∧ k a s₁ = some r := by
  obtain ⟨p, hm, hk⟩ := Option.bind_eq_some_iff.mp (show (m s).bind _ = some r from h)
  exact ⟨p.1, p.2, hm, hk⟩

/-- A step that lays nothing. -/
theorem quiet (h : ∀ s a s', m s = some (a, s') →
    g.events s' = g.events s ∧ g.next s' = g.next s) : Lays g targets alive M ∅ t t m := by
  intro s a s' _ hm
  have hs := h s a s' hm
  refine ⟨[], ?_, ?_, trivial, fun ht => ht⟩
  · rw [hs.1, List.append_nil]
  · rw [hs.2]
    exact Fragment.insts [] fun _ i hi => by cases hi

theorem pure (a : α) : Lays g targets alive M ∅ t t (Pure.pure a : StateT S Option α) := by
  apply quiet
  intro s b s' h
  have hs : s = s' := (Prod.mk.inj (Option.some.inj h)).2
  rw [hs]
  exact ⟨rfl, rfl⟩

theorem bind (hm : Lays g targets alive M R₁ t t₁ m) (hk : ∀ a, Lays g targets alive M R₂ t₁ t' (k a))
    (hR : ∀ l ∈ R₁, l ∉ R₂) : Lays g targets alive M (R₁ ∪ R₂) t t' (m >>= k) := by
  intro s b s' hlt h
  obtain ⟨a, s₁, h₁, h₂⟩ := bind_some h
  have hlt₁ : ∀ l ∈ M ∪ R₁, l < g.next s := by
    intro l hl
    apply hlt
    rcases hl with hl | hl
    · exact Or.inl hl
    · exact Or.inr (Or.inl hl)
  obtain ⟨E₁, hE₁, hF₁, hS₁, ht₁⟩ := hm s a s₁ hlt₁ h₁
  have hlt₂ : ∀ l ∈ M ∪ R₂, l < g.next s₁ := by
    intro l hl
    refine lt_of_lt_of_le (hlt l ?_) hF₁.le
    rcases hl with hl | hl
    · exact Or.inl hl
    · exact Or.inr (Or.inr hl)
  obtain ⟨E₂, hE₂, hF₂, hS₂, ht₂⟩ := hk a s₁ b s' hlt₂ h₂
  have hends : t₁ = true → ends targets t E₁ = true := ht₁
  refine ⟨E₁ ++ E₂, ?_, hF₁.append hF₂ hR fun l hl => hlt l (Or.inr hl), ?_, ?_⟩
  · rw [hE₂, hE₁, List.append_assoc]
  · rw [sealed_append]
    refine ⟨hS₁, ?_⟩
    cases t₁ with
    | false => exact hS₂.weaken _
    | true => rw [hends rfl]; exact hS₂
  · intro ht'
    rw [ends_append]
    cases t₁ with
    | false => exact ends_weaken (ht₂ ht') _
    | true => rw [hends rfl]; exact ht₂ ht'

/-- The first step lays no reserved label. -/
theorem andThen (hm : Lays g targets alive M ∅ t t₁ m) (hk : ∀ a, Lays g targets alive M R t₁ t' (k a)) :
    Lays g targets alive M R t t' (m >>= k) := by
  have h := bind hm hk fun l hl => (Set.notMem_empty l hl).elim
  rwa [Set.empty_union] at h

theorem weaken (h : Lays g targets alive M R false t' m) : Lays g targets alive M R t t' m := by
  intro s a s' hlt hm
  obtain ⟨E, hE, hF, hS, ht⟩ := h s a s' hlt hm
  exact ⟨E, hE, hF, hS.weaken t, fun h => ends_weaken (ht h) t⟩

theorem forget (h : Lays g targets alive M R t true m) : Lays g targets alive M R t false m := by
  intro s a s' hlt hm
  obtain ⟨E, hE, hF, hS, -⟩ := h s a s' hlt hm
  exact ⟨E, hE, hF, hS, fun h => by cases h⟩

/-- A generator that appends instructions. -/
theorem insts (is : List I) (h : ∀ s a s', m s = some (a, s') →
      g.events s' = g.events s ++ is.map Event.inst ∧ g.next s' = g.next s)
    (his : alive → ∀ i ∈ is, ∀ ls, targets i = some ls → ∀ l ∈ ls, l ∈ M)
    (ht : t' = true → ends targets t (is.map Event.inst) = true) :
    Lays g targets alive M ∅ t t' m := by
  intro s a s' _ hm
  have hs := h s a s' hm
  refine ⟨is.map Event.inst, hs.1, ?_, sealed_insts targets t is, ht⟩
  rw [hs.2]
  exact Fragment.insts is his

/-- A generator that starts a block. -/
theorem block {l : ℕ} (h : ∀ s a s', m s = some (a, s') →
      g.events s' = g.events s ++ [.block l] ∧ g.next s' = g.next s) :
    Lays g targets alive M {l} true false m := by
  intro s a s' _ hm
  have hs := h s a s' hm
  refine ⟨[.block l], hs.1, ?_, ⟨rfl, trivial⟩, fun h => by cases h⟩
  rw [hs.2]
  exact Fragment.block l

/-- A reserved block, and what follows. -/
theorem startBlock {l : ℕ} (R' : Set ℕ) (hm : ∀ s a s', m s = some (a, s') →
      g.events s' = g.events s ++ [.block l] ∧ g.next s' = g.next s)
    (hR : ∀ x, x ∈ R ↔ x = l ∨ x ∈ R') (hl : l ∉ R')
    (hk : ∀ a, Lays g targets alive M R' false t' (k a)) :
    Lays g targets alive M R true t' (m >>= k) := by
  have hset : R = {l} ∪ R' := Set.ext hR
  rw [hset]
  apply bind (block hm) hk
  intro x hx
  rw [Set.mem_singleton_iff.mp hx]
  exact hl

/-- A generator that hands out labels, which are in its answer. -/
def Allocates (g : Generator S I) (labels : α → List ℕ) (m : StateT S Option α) : Prop :=
  ∀ s a s', m s = some (a, s') → labels a = List.range' (g.next s) (labels a).length ∧
    g.next s' = g.next s + (labels a).length ∧ g.events s' = g.events s

variable {labels : α → List ℕ}

theorem Allocates.nil {a : α} (h : labels a = []) :
    Allocates g labels (Pure.pure a : StateT S Option α) := by
  intro s b s' hm
  obtain ⟨ha, hs⟩ := Prod.mk.inj (Option.some.inj hm)
  rw [← ha, ← hs, h]
  exact ⟨rfl, rfl, rfl⟩

/-- One label, and those of the rest. -/
theorem Allocates.cons {γ : Type} {alloc : StateT S Option ℕ} {f : ℕ → α → γ}
    {labels' : γ → List ℕ} (halloc : Allocates g (fun l => [l]) alloc) (hm : Allocates g labels m)
    (hlabels : ∀ l a, labels' (f l a) = l :: labels a) :
    Allocates g labels' (alloc >>= fun l => m >>= fun a => Pure.pure (f l a)) := by
  intro s c s' h
  obtain ⟨l, s₁, h₁, h⟩ := bind_some h
  obtain ⟨a, s₂, h₂, h⟩ := bind_some h
  obtain ⟨hc, hs⟩ := Prod.mk.inj (Option.some.inj h)
  obtain ⟨hl, hn, he⟩ := halloc s l s₁ h₁
  obtain ⟨hl', hn', he'⟩ := hm s₁ a s₂ h₂
  have hl₀ : l = g.next s := (List.cons.inj hl).1
  have hn₁ : g.next s₁ = g.next s + 1 := hn
  have hlabels₀ := hlabels l a
  rw [← hc, ← hs]
  refine ⟨?_, ?_, he'.trans he⟩
  · rw [hlabels₀, List.length_cons, List.range'_succ, ← hl₀]
    rw [hn₁, ← hl₀] at hl'
    rw [← hl']
  · rw [hn', hn₁, hlabels₀, List.length_cons]
    omega

theorem allocate {M' R' : α → Set ℕ} (halloc : Allocates g labels m)
    (hM : ∀ a, M ⊆ M' a ∧ ∀ x ∈ M' a, x ∈ M ∨ x ∈ labels a ∧ x ∈ R' a)
    (hR : ∀ a, R ⊆ R' a ∧ ∀ x ∈ R' a, x ∈ R ∨ x ∈ labels a)
    (hk : ∀ s a s', m s = some (a, s') → (labels a).Nodup → (∀ l ∈ labels a, l ∉ M ∧ l ∉ R) →
      Lays g targets alive (M' a) (R' a) t t' (k a)) :
    Lays g targets alive M R t t' (m >>= k) := by
  intro s b s' hlt h
  obtain ⟨a, s₁, h₁, h₂⟩ := bind_some h
  obtain ⟨hlabels, hnext, hevents⟩ := halloc s a s₁ h₁
  have hrange : ∀ l ∈ labels a, g.next s ≤ l ∧ l < g.next s₁ := by
    intro l hl
    rw [hlabels, List.mem_range'_1] at hl
    rw [hnext]
    exact hl
  have hnodup : (labels a).Nodup := by
    rw [hlabels]
    exact List.nodup_range'
  have hfresh : ∀ l ∈ labels a, l ∉ M ∧ l ∉ R := by
    intro l hl
    have hle := (hrange l hl).1
    constructor
    · intro hlM
      have hlt' := hlt l (Or.inl hlM)
      omega
    · intro hlR
      have hlt' := hlt l (Or.inr hlR)
      omega
  have hlt₁ : ∀ x ∈ M' a ∪ R' a, x < g.next s₁ := by
    have hold : ∀ x ∈ M ∪ R, x < g.next s₁ := by
      intro x hx
      have hx' := hlt x hx
      omega
    intro x hx
    rcases hx with hx | hx
    · rcases (hM a).2 x hx with hx | hx
      · exact hold x (Or.inl hx)
      · exact (hrange x hx.1).2
    · rcases (hR a).2 x hx with hx | hx
      · exact hold x (Or.inr hx)
      · exact (hrange x hx).2
  obtain ⟨E, hE, hF, hS, ht⟩ := hk s a s₁ h₁ hnodup hfresh s₁ b s' hlt₁ h₂
  have hle := hF.le
  refine ⟨E, by rw [hE, hevents], ⟨by omega, hF.nodup, ?_, fun l hl => hF.all l ((hR a).1 hl), ?_⟩,
    hS, ht⟩
  · intro x hx
    rcases hF.mem x hx with hx | hx
    · rcases (hR a).2 x hx with hx | hx
      · exact Or.inl hx
      · have hx' := hrange x hx
        exact Or.inr (by omega)
    · exact Or.inr (by omega)
  · intro ha
    obtain ⟨live, hin, hlive, hkeeps⟩ := hF.live ha
    refine ⟨live, hin, fun x hx hxM => hlive x hx ((hM a).1 hxM), ?_⟩
    refine hkeeps.imp (fun h => h) (fun x _ hx => hx) ?_
    intro x hx
    rcases hx with hx | hx
    · exact Or.inl hx
    · rcases (hM a).2 x hx with hx' | hx'
      · exact Or.inr hx'
      · exact Or.inl (hlive x (hF.all x hx'.2) hx)

/-- The labels are laid later on, and may be led to. -/
theorem reserveAll (halloc : Allocates g labels m)
    (hk : ∀ s a s', m s = some (a, s') → (labels a).Nodup → (∀ l ∈ labels a, l ∉ M ∧ l ∉ R) →
      Lays g targets alive ({l | l ∈ labels a} ∪ M) ({l | l ∈ labels a} ∪ R) t t' (k a)) :
    Lays g targets alive M R t t' (m >>= k) := by
  refine allocate halloc (fun a => ⟨Set.subset_union_right, ?_⟩)
    (fun a => ⟨Set.subset_union_right, ?_⟩) hk
  · intro x hx
    rcases hx with hx | hx
    · exact Or.inr ⟨hx, Or.inl hx⟩
    · exact Or.inl hx
  · intro x hx
    rcases hx with hx | hx
    · exact Or.inr hx
    · exact Or.inl hx

variable {alloc : StateT S Option ℕ} {k' : ℕ → StateT S Option β}

/-- The label is laid later on, and may be led to. -/
theorem reserve (halloc : Allocates g (fun l => [l]) alloc)
    (hk : ∀ l, l ∉ M → l ∉ R → Lays g targets alive (insert l M) (insert l R) t t' (k' l)) :
    Lays g targets alive M R t t' (alloc >>= k') := by
  refine reserveAll halloc fun s l s' _ _ hl => ?_
  have hset : {x | x ∈ [l]} = ({l} : Set ℕ) := by simp
  have hfresh := hl l (List.mem_singleton_self l)
  rw [hset]
  exact hk l hfresh.1 hfresh.2

/-- The label is laid later on, but nothing leads to it. -/
theorem reserveDead (halloc : Allocates g (fun l => [l]) alloc)
    (hk : ∀ l, l ∉ M → l ∉ R → Lays g targets alive M (insert l R) t t' (k' l)) :
    Lays g targets alive M R t t' (alloc >>= k') := by
  refine allocate halloc (fun l => ⟨subset_rfl, fun x hx => Or.inl hx⟩)
    (fun l => ⟨Set.subset_insert l R, ?_⟩) fun s l s' _ _ hl => ?_
  · intro x hx
    rcases hx with hx | hx
    · exact Or.inr (List.mem_singleton.mpr hx)
    · exact Or.inl hx
  · have hfresh := hl l (List.mem_singleton_self l)
    exact hk l hfresh.1 hfresh.2

/-- The label is not used. -/
theorem skip (halloc : Allocates g (fun l => [l]) alloc)
    (hk : ∀ l, l ∉ M → l ∉ R → Lays g targets alive M R t t' (k' l)) :
    Lays g targets alive M R t t' (alloc >>= k') := by
  refine allocate halloc (fun _ => ⟨subset_rfl, fun _ hx => Or.inl hx⟩)
    (fun _ => ⟨subset_rfl, fun _ hx => Or.inl hx⟩) fun s l s' _ _ hl => ?_
  have hfresh := hl l (List.mem_singleton_self l)
  exact hk l hfresh.1 hfresh.2

theorem kill (h : Lays g targets alive M R t t' m) : Lays g targets False M R t t' m := by
  intro s a s' hlt hm
  obtain ⟨E, hE, hF, hS, ht⟩ := h s a s' hlt hm
  exact ⟨E, hE, ⟨hF.le, hF.nodup, hF.mem, hF.all, fun h => h.elim⟩, hS, ht⟩

/-- A block that nothing leads to, and what follows. -/
theorem dead {l : ℕ} {m : StateT S Option α} (hm : ∀ s a s', m s = some (a, s') →
      g.events s' = g.events s ++ [.block l] ∧ g.next s' = g.next s)
    (hk : ∀ a, Lays g targets False M R false t' (k a)) (hl : l ∉ R) (hlM : l ∉ M)
    (hR : ∀ x ∈ R, x ∉ M) : Lays g targets alive M ({l} ∪ R) true t' (m >>= k) := by
  intro s b s' hlt h
  obtain ⟨a, s₁, h₁, h₂⟩ := bind_some h
  have hs := hm s a s₁ h₁
  have hlt₁ : ∀ x ∈ M ∪ R, x < g.next s₁ := by
    intro x hx
    rw [hs.2]
    apply hlt
    rcases hx with hx | hx
    · exact Or.inl hx
    · exact Or.inr (Or.inr hx)
  obtain ⟨E, hE, hF, hS, ht⟩ := hk a s₁ b s' hlt₁ h₂
  have hF' : Fragment targets False M ({l} ∪ R) (g.next s) (g.next s') ([.block l] ++ E) := by
    refine Fragment.append (Fragment.block l) (by rw [← hs.2]; exact hF) ?_ ?_
    · intro x hx
      rw [Set.mem_singleton_iff.mp hx]
      exact hl
    · exact fun x hx => hlt x (Or.inr hx)
  have hsealed : Sealed targets true ([.block l] ++ E) := ⟨rfl, hS⟩
  have hends : t' = true → ends targets true ([.block l] ++ E) = true := ht
  refine ⟨[.block l] ++ E, by rw [hE, hs.1, List.append_assoc], ?_, hsealed, hends⟩
  refine hF'.ofDead ?_ fun x hx => hlt x (Or.inl hx)
  intro x hx
  rcases hx with hx | hx
  · rw [Set.mem_singleton_iff.mp hx]
    exact hlM
  · exact hR x hx

end Lays

end LaidCode
