import RotoCompiler.Value.ErasedList

/-!
# Lists refine sequences (value/list.rs)

Whole runs of list operations, beside the same operations on mathematical sequences. A
run keeps to the sequences exactly as long as no length of a list without bytes wraps.
-/

namespace Roto.Value
open Lib

inductive Op (vt : VTable) where
  | new
  | push (h : ℕ) (e : Bytes vt.size)
  | concat (self other : ℕ)
  | swap (h i j : ℕ)
  | get (h idx : ℕ)
  | contains (h : ℕ) (item : Bytes vt.size)
  | index (h : ℕ) (item : Bytes vt.size)
  | len (h : ℕ)

/-- What an operation returns, for elements in `β`. -/
inductive Output (β : Type) where
  | unit
  | handle (h : ℕ)
  | elem (o : Option β)
  | bool (b : Bool)
  | position (o : Option ℕ)
  | length (n : ℕ)

def Output.map {β γ : Type} (f : β → γ) : Output β → Output γ
  | unit => unit
  | handle h => handle h
  | elem o => elem (o.map f)
  | bool b => bool b
  | position o => position o
  | length n => length n

section
variable (build : Build) {vt : VTable} {α : Type} (E : Elements vt α)

/-- One operation of the code; `fresh` is what newly allocated bytes happen to hold. -/
def step (fresh : Memory) (w : World) :
    Op vt → Except Stop (Output (Bytes vt.size) × World)
  | .new => let (h, w) := ErasedList.new vt w; .ok (.handle h, w)
  | .push h e => do
    let w ← ErasedList.push build vt fresh w h e
    return (.unit, w)
  | .concat self other => do
    let (h, w) ← ErasedList.concat build vt fresh w self other
    return (.handle h, w)
  | .swap h i j => do
    let w ← ErasedList.swap vt w h i j
    return (.unit, w)
  | .get h idx => do
    let (o, w) ← ErasedList.get vt w h idx
    return (.elem o, w)
  | .contains h item => do
    let (b, w) ← ErasedList.contains vt w h item
    return (.bool b, w)
  | .index h item => do
    let (o, w) ← ErasedList.index vt w h item
    return (.position o, w)
  | .len h => do
    let (n, w) ← ErasedList.len w h
    return (.length n, w)

/-- The same operation on sequences; there is no result for a handle to no list. -/
def seqStep (xss : List (List α)) : Op vt → Option (Output α × List (List α))
  | .new => some (.handle xss.length, xss ++ [[]])
  | .push h e => do
    let xs ← xss[h]?
    return (.unit, xss.set h (xs ++ [E.decode e]))
  | .concat self other => do
    let xs ← xss[self]?
    let ys ← xss[other]?
    return (.handle xss.length, xss ++ [xs ++ ys])
  | .swap h i j => do
    let xs ← xss[h]?
    return (.unit, xss.set h (RawList.swapped xs i j))
  | .get h idx => do
    let xs ← xss[h]?
    return (.elem xs[idx]?, xss)
  | .contains h item => do
    let xs ← xss[h]?
    return (.bool (xs.any fun a => E.eq a (E.decode item)), xss)
  | .index h item => do
    let xs ← xss[h]?
    return (.position (xs.findIdx? fun a => E.eq a (E.decode item)), xss)
  | .len h => do
    let xs ← xss[h]?
    return (.length xs.length, xss)

/-- The length of the list that an operation makes. -/
def newLen (xss : List (List α)) : Op vt → ℕ
  | .push h _ => (xss[h]?.getD []).length + 1
  | .concat self other => (xss[self]?.getD []).length + (xss[other]?.getD []).length
  | _ => 0

def World.contents (w : World) : List (List α) := w.lists.map (RawList.contents E)

/-- The run returns what the sequences say and the lists hold what the sequences hold, up
to the end or to a panic over a list that no memory can hold. -/
def Refines (w : World) (xss : List (List α)) : List (Op vt × Memory) → Prop
  | [] => True
  | (op, fresh) :: ops =>
    match seqStep E xss op with
    | none => True
    | some (o, xss') =>
      match step build fresh w op with
      | .ok (out, w') => out.map E.decode = o ∧ w'.contents E = xss' ∧ Refines w' xss' ops
      | .error .panic => ¬ RawList.Fits vt (newLen xss op)
      | .error .relock => False

/-- No length of a list of elements of size zero wraps in the run: each list that `push`
or `concat` makes is shorter than `usize` can count. -/
def NoWrap (w : World) : List (Op vt × Memory) → Prop
  | [] => True
  | (op, fresh) :: ops =>
    match step build fresh w op with
    | .ok (_, w') =>
      (vt.size = 0 → newLen (w.contents E) op < usizeBound) ∧ NoWrap w' ops
    | .error _ => True

/-! ### One operation -/

/-- No thread holds a lock between two operations. -/
structure World.Ok (vt : VTable) (w : World) : Prop where
  held : w.held = []
  lists : ∀ l ∈ w.lists, RawList.Ok vt l

variable {build E} {fresh : Memory} {w w' : World} {h : ℕ} {l : RawList}

theorem World.ok_empty : World.Ok vt World.empty := ⟨rfl, fun _ hl => absurd hl List.not_mem_nil⟩

theorem World.Ok.get (hw : World.Ok vt w) (hl : w.lists[h]? = some l) : RawList.Ok vt l :=
  hw.lists l (List.mem_of_getElem? hl)

theorem World.Ok.set (hw : World.Ok vt w) (hl : RawList.Ok vt l) (h : ℕ) :
    World.Ok vt { w with lists := w.lists.set h l } := by
  refine ⟨hw.held, fun l' hl' => ?_⟩
  rcases List.mem_or_eq_of_mem_set hl' with hmem | rfl
  · exact hw.lists l' hmem
  · exact hl

theorem World.Ok.append (hw : World.Ok vt w) (hl : RawList.Ok vt l) :
    World.Ok vt { w with lists := w.lists ++ [l] } := by
  refine ⟨hw.held, fun l' hl' => ?_⟩
  rcases List.mem_append.mp hl' with hmem | hmem
  · exact hw.lists l' hmem
  · exact List.mem_singleton.mp hmem ▸ hl

theorem World.contents_set (h : ℕ) :
    World.contents E { w with lists := w.lists.set h l } = (w.contents E).set h (l.contents E) := by
  simp [contents, List.map_set]

theorem World.contents_append :
    World.contents E { w with lists := w.lists ++ [l] } = w.contents E ++ [l.contents E] := by
  simp [contents]

theorem World.getElem?_contents : (w.contents E)[h]? = w.lists[h]?.map (RawList.contents E) := by
  simp [contents]

/-- A list that is locked, read and unlocked again. -/
theorem push_eq (hw : w.held = []) (hl : w.lists[h]? = some l) {e : Bytes vt.size} :
    ErasedList.push build vt fresh w h e = (do
      let l ← l.push build vt fresh e
      return { w with lists := w.lists.set h l }) := by
  cases hp : l.push build vt fresh e <;>
    simp [ErasedList.push, World.lock, World.unlock, World.raw, World.setRaw, hw, hl, hp, bind,
      Except.bind, pure, Except.pure]

theorem swap_eq (hw : w.held = []) (hl : w.lists[h]? = some l) {i j : ℕ} :
    ErasedList.swap vt w h i j = .ok { w with lists := w.lists.set h (l.swap vt i j) } := by
  simp [ErasedList.swap, World.lock, World.unlock, World.raw, World.setRaw, hw, hl, bind,
    Except.bind, pure, Except.pure]

theorem get_eq (hw : w.held = []) (hl : w.lists[h]? = some l) {idx : ℕ} :
    ErasedList.get vt w h idx =
      .ok ((l.get vt idx).map fun off => l.mem.read vt.size off, w) := by
  obtain ⟨lists, held⟩ := w
  obtain rfl : held = [] := hw
  simp [ErasedList.get, World.lock, World.unlock, World.raw, hl, bind, Except.bind, pure,
    Except.pure]

theorem contains_eq (hw : w.held = []) (hl : w.lists[h]? = some l) {item : Bytes vt.size} :
    ErasedList.contains vt w h item = (do
      let b ← l.contains vt item
      return (b, w)) := by
  obtain ⟨lists, held⟩ := w
  obtain rfl : held = [] := hw
  cases hc : l.contains vt item <;>
    simp [ErasedList.contains, World.lock, World.unlock, World.raw, hl, hc, bind, Except.bind,
      pure, Except.pure]

theorem index_eq (hw : w.held = []) (hl : w.lists[h]? = some l) {item : Bytes vt.size} :
    ErasedList.index vt w h item = (do
      let o ← l.index vt item
      return (o, w)) := by
  obtain ⟨lists, held⟩ := w
  obtain rfl : held = [] := hw
  cases hc : l.index vt item <;>
    simp [ErasedList.index, World.lock, World.unlock, World.raw, hl, hc, bind, Except.bind,
      pure, Except.pure]

theorem len_eq (hw : w.held = []) (hl : w.lists[h]? = some l) :
    ErasedList.len w h = .ok (l.len, w) := by
  obtain ⟨lists, held⟩ := w
  obtain rfl : held = [] := hw
  simp [ErasedList.len, World.lock, World.unlock, World.raw, hl, bind, Except.bind, pure,
    Except.pure]

/-- The first list is unlocked before the second is locked, so the two may be one. -/
theorem concat_eq (hw : w.held = []) {self other : ℕ} {a b : RawList}
    (ha : w.lists[self]? = some a) (hb : w.lists[other]? = some b) :
    ErasedList.concat build vt fresh w self other = (do
      let raw ← (RawList.new vt).extend build vt fresh a
      let raw ← raw.extend build vt fresh b
      return (w.lists.length, { w with lists := w.lists ++ [raw] })) := by
  have hself : self < w.lists.length := (List.getElem?_eq_some_iff.mp ha).1
  have hother : other < w.lists.length := (List.getElem?_eq_some_iff.mp hb).1
  have hne : other ≠ w.lists.length := by omega
  have hne' : w.lists.length ≠ self := by omega
  cases h₁ : (RawList.new vt).extend build vt fresh a with
  | error s =>
    simp [ErasedList.concat, ErasedList.new, World.lock, World.raw, hw, ha, h₁, hne', bind,
      Except.bind]
  | ok raw =>
    have hget : (w.lists ++ [RawList.new vt])[other]? = some b := by
      rw [List.getElem?_append_left hother, hb]
    cases h₂ : raw.extend build vt fresh b <;>
      simp [ErasedList.concat, ErasedList.new, World.lock, World.unlock, World.raw, World.setRaw,
        hw, ha, h₁, h₂, hget, hne, hne', bind, Except.bind, pure, Except.pure]

/-- What one operation may do, given what it does to the sequences: it returns, and
agrees with them unless a length wraps, or it panics over a list that is too long. -/
def StepSpec (vt : VTable) (E : Elements vt α) (n : ℕ) (o : Output α) (xss' : List (List α)) :
    Except Stop (Output (Bytes vt.size) × World) → Prop
  | .ok (out, w') => World.Ok vt w' ∧
      (out.map E.decode = o ∧ w'.contents E = xss' ↔ (vt.size = 0 → n < usizeBound))
  | .error s => s = .panic ∧ ¬ RawList.Fits vt n

theorem push_spec (hw : World.Ok vt w) (hl : w.lists[h]? = some l) {e : Bytes vt.size} :
    StepSpec vt E (l.len + 1) .unit ((w.contents E).set h (l.contents E ++ [E.decode e]))
      (step build fresh w (.push h e)) := by
  have hlt : h < w.lists.length := (List.getElem?_eq_some_iff.mp hl).1
  simp only [step, push_eq hw.held hl]
  cases hp : l.push build vt fresh e with
  | error s => exact RawList.push_error (hw.get hl) hp
  | ok l' =>
    have hiff := RawList.push_iff E (hw.get hl) hp
    refine ⟨hw.set hiff.1 h, ?_⟩
    rw [← hiff.2, World.contents_set]
    refine ⟨fun heq => ?_, fun heq => ⟨rfl, by rw [heq]⟩⟩
    have hat := congrArg (·[h]?) heq.2
    simpa [World.contents, hlt] using hat

theorem concat_spec (hw : World.Ok vt w) {self other : ℕ} {a b : RawList}
    (ha : w.lists[self]? = some a) (hb : w.lists[other]? = some b) :
    StepSpec vt E (a.len + b.len) (.handle w.lists.length)
      (w.contents E ++ [a.contents E ++ b.contents E])
      (step build fresh w (.concat self other)) := by
  have hoka := hw.get ha
  have hokb := hw.get hb
  simp only [step, concat_eq hw.held ha hb]
  cases h₁ : (RawList.new vt).extend build vt fresh a with
  | error s =>
    have herr := RawList.extend_error RawList.ok_new hoka h₁
    exact ⟨herr.1, fun hfit => herr.2 (hfit.mono (by simp [RawList.new]))⟩
  | ok l₁ =>
    have hlt : (RawList.new vt).len + a.len < usizeBound := by
      have := hoka.len_lt
      simpa [RawList.new] using this
    obtain ⟨hok₁, hcon₁⟩ := RawList.extend_ok E RawList.ok_new hoka h₁ fun _ => hlt
    have hlen₁ : l₁.len = a.len := by
      have hlens := congrArg List.length hcon₁
      simpa [RawList.new] using hlens
    rw [RawList.contents_new, List.nil_append] at hcon₁
    cases h₂ : l₁.extend build vt fresh b with
    | error s =>
      have herr := RawList.extend_error hok₁ hokb h₂
      rw [hlen₁] at herr
      simp only [h₂, bind, Except.bind]
      exact herr
    | ok l₂ =>
      have hiff := RawList.extend_iff E hok₁ hokb h₂
      rw [hlen₁, hcon₁] at hiff
      simp only [h₂, bind, Except.bind, pure, Except.pure]
      refine ⟨hw.append hiff.1, ?_⟩
      rw [← hiff.2, World.contents_append]
      exact ⟨fun heq => by simpa using heq.2, fun heq => ⟨rfl, by rw [heq]⟩⟩

/-- The operations that make no list agree with the sequences always. -/
theorem stepSpec_same {out : Output (Bytes vt.size)} {o : Output α} {xss : List (List α)}
    (hw : World.Ok vt w) (hout : out.map E.decode = o) (hxss : w.contents E = xss) :
    StepSpec vt E 0 o xss (.ok (out, w)) :=
  ⟨hw, fun _ _ => by simp [usizeBound], fun _ => ⟨hout, hxss⟩⟩

theorem step_spec (hw : World.Ok vt w) {op : Op vt} {o : Output α} {xss' : List (List α)}
    (hseq : seqStep E (w.contents E) op = some (o, xss')) :
    StepSpec vt E (newLen (w.contents E) op) o xss' (step build fresh w op) := by
  have hread : ∀ {h : ℕ} {xs : List α}, (w.contents E)[h]? = some xs →
      ∃ l, w.lists[h]? = some l ∧ l.contents E = xs := by
    intro h xs hxs
    rw [World.getElem?_contents] at hxs
    exact Option.map_eq_some_iff.mp hxs
  cases op with
  | new =>
    obtain ⟨rfl, rfl⟩ := Prod.mk.inj (Option.some.inj hseq)
    refine stepSpec_same (hw.append RawList.ok_new) ?_ World.contents_append
    simp [Output.map, World.contents]
  | push h e =>
    obtain ⟨xs, hxs, hseq⟩ := Option.bind_eq_some_iff.mp hseq
    obtain ⟨l, hl, rfl⟩ := hread hxs
    obtain ⟨rfl, rfl⟩ := Prod.mk.inj (Option.some.inj hseq)
    simpa [newLen, hxs] using push_spec hw hl
  | concat self other =>
    obtain ⟨xs, hxs, hseq⟩ := Option.bind_eq_some_iff.mp hseq
    obtain ⟨ys, hys, hseq⟩ := Option.bind_eq_some_iff.mp hseq
    obtain ⟨a, ha, rfl⟩ := hread hxs
    obtain ⟨b, hb, rfl⟩ := hread hys
    obtain ⟨rfl, rfl⟩ := Prod.mk.inj (Option.some.inj hseq)
    have hlen : (w.contents E).length = w.lists.length := List.length_map ..
    simpa [newLen, hxs, hys, hlen] using concat_spec (E := E) hw ha hb
  | swap h i j =>
    obtain ⟨xs, hxs, hseq⟩ := Option.bind_eq_some_iff.mp hseq
    obtain ⟨l, hl, rfl⟩ := hread hxs
    obtain ⟨rfl, rfl⟩ := Prod.mk.inj (Option.some.inj hseq)
    simp only [step, swap_eq hw.held hl]
    refine stepSpec_same (hw.set (RawList.swap_ok (hw.get hl)) h) rfl ?_
    rw [World.contents_set, RawList.contents_swap E (hw.get hl)]
  | get h idx =>
    obtain ⟨xs, hxs, hseq⟩ := Option.bind_eq_some_iff.mp hseq
    obtain ⟨l, hl, rfl⟩ := hread hxs
    obtain ⟨rfl, rfl⟩ := Prod.mk.inj (Option.some.inj hseq)
    simp only [step, get_eq hw.held hl]
    refine stepSpec_same hw ?_ rfl
    rw [Output.map, Option.map_map, ← RawList.get_eq E idx]
    rfl
  | contains h item =>
    obtain ⟨xs, hxs, hseq⟩ := Option.bind_eq_some_iff.mp hseq
    obtain ⟨l, hl, rfl⟩ := hread hxs
    obtain ⟨rfl, rfl⟩ := Prod.mk.inj (Option.some.inj hseq)
    simp only [step, contains_eq hw.held hl, RawList.contains_eq E]
    exact stepSpec_same hw rfl rfl
  | index h item =>
    obtain ⟨xs, hxs, hseq⟩ := Option.bind_eq_some_iff.mp hseq
    obtain ⟨l, hl, rfl⟩ := hread hxs
    obtain ⟨rfl, rfl⟩ := Prod.mk.inj (Option.some.inj hseq)
    simp only [step, index_eq hw.held hl, RawList.index_eq E]
    exact stepSpec_same hw rfl rfl
  | len h =>
    obtain ⟨xs, hxs, hseq⟩ := Option.bind_eq_some_iff.mp hseq
    obtain ⟨l, hl, rfl⟩ := hread hxs
    obtain ⟨rfl, rfl⟩ := Prod.mk.inj (Option.some.inj hseq)
    simp only [step, len_eq hw.held hl]
    exact stepSpec_same hw (by simp [Output.map]) rfl

theorem lock_raw_error (hl : w.lists[h]? = none) {β : Type}
    (k : World → RawList → Except Stop β) :
    ∃ s, (do let w ← w.lock h; let l ← w.raw h; k w l) = .error s := by
  by_cases hh : h ∈ w.held
  · exact ⟨.relock, by simp [World.lock, hh, bind, Except.bind]⟩
  · exact ⟨.panic, by simp [World.lock, World.raw, hh, hl, bind, Except.bind]⟩

theorem bind_of_error {β γ : Type} {x : Except Stop β} (k : β → Except Stop γ)
    (hx : ∃ s, x = .error s) : ∃ s, (x >>= k) = .error s := by
  obtain ⟨s, rfl⟩ := hx
  exact ⟨s, rfl⟩

theorem concat_error (hw : w.held = []) {self other : ℕ} (ho : w.lists[other]? = none) :
    ∃ s, ErasedList.concat build vt fresh w self other = .error s := by
  cases hs : w.lists[self]? with
  | none => exact lock_raw_error hs _
  | some a =>
    have hself : self < w.lists.length := (List.getElem?_eq_some_iff.mp hs).1
    have hne : w.lists.length ≠ self := by omega
    have hother : w.lists.length ≤ other := List.getElem?_eq_none_iff.mp ho
    cases h₁ : (RawList.new vt).extend build vt fresh a with
    | error s =>
      exact ⟨s, by simp [ErasedList.concat, ErasedList.new, World.lock, World.raw, hw, hs, h₁,
        hne, bind, Except.bind]⟩
    | ok raw =>
      -- the new list is locked, and there is no list after it
      rcases Nat.eq_or_lt_of_le hother with heq | hgt
      · exact ⟨.relock, by simp [ErasedList.concat, ErasedList.new, World.lock, World.unlock,
          World.raw, hw, hs, h₁, hne, ← heq, bind, Except.bind]⟩
      · have hnone : (w.lists ++ [RawList.new vt])[other]? = none := by simp; omega
        have hne' : other ≠ w.lists.length := by omega
        exact ⟨.panic, by simp [ErasedList.concat, ErasedList.new, World.lock, World.unlock,
          World.raw, hw, hs, h₁, hne, hne', hnone, bind, Except.bind]⟩

/-- A handle to no list ends a run. -/
theorem step_error (hw : w.held = []) {op : Op vt} (hseq : seqStep E (w.contents E) op = none) :
    ∃ s, step build fresh w op = .error s := by
  have hread : ∀ {h : ℕ} {β : Type} {k : List α → Option β}, (∀ xs, k xs ≠ none) →
      (w.contents E)[h]?.bind k = none → w.lists[h]? = none := by
    intro h β k hk hnone
    rw [World.getElem?_contents] at hnone
    cases hl : w.lists[h]? with
    | none => rfl
    | some l =>
      rw [hl] at hnone
      exact absurd hnone (hk _)
  cases op with
  | new => cases hseq
  | push h e => exact bind_of_error _ (lock_raw_error (hread (by simp) hseq) _)
  | concat self other =>
    refine bind_of_error _ ?_
    cases hs : w.lists[self]? with
    | none => exact lock_raw_error hs _
    | some a =>
      refine concat_error hw (hread (h := other) (k := fun ys => some (Output.handle (β := α)
        (w.contents E).length, w.contents E ++ [a.contents E ++ ys])) (by simp) ?_)
      simpa [seqStep, World.getElem?_contents, hs] using hseq
  | swap h i j => exact bind_of_error _ (lock_raw_error (hread (by simp) hseq) _)
  | get h idx => exact bind_of_error _ (lock_raw_error (hread (by simp) hseq) _)
  | contains h item => exact bind_of_error _ (lock_raw_error (hread (by simp) hseq) _)
  | index h item => exact bind_of_error _ (lock_raw_error (hread (by simp) hseq) _)
  | len h => exact bind_of_error _ (lock_raw_error (hread (by simp) hseq) _)

/-! ### Whole runs -/

theorem refines_iff_noWrap {ops : List (Op vt × Memory)} (hw : World.Ok vt w) :
    Refines build E w (w.contents E) ops ↔ NoWrap build E w ops := by
  induction ops generalizing w with
  | nil => exact Iff.rfl
  | cons op ops ih =>
    obtain ⟨op, fresh⟩ := op
    unfold Refines NoWrap
    cases hseq : seqStep E (w.contents E) op with
    | none =>
      obtain ⟨s, hs⟩ : ∃ s, step build fresh w op = .error s := step_error hw.held hseq
      simp [hs]
    | some r =>
      obtain ⟨o, xss'⟩ := r
      have hspec : StepSpec vt E (newLen (w.contents E) op) o xss' (step build fresh w op) :=
        step_spec hw hseq
      cases hstep : step build fresh w op with
      | error s =>
        rw [hstep] at hspec
        obtain ⟨rfl, hfit⟩ := hspec
        exact ⟨fun _ => trivial, fun _ => hfit⟩
      | ok r =>
        obtain ⟨out, w'⟩ := r
        rw [hstep] at hspec
        obtain ⟨hw', hiff⟩ := hspec
        refine ⟨fun ⟨hout, hcon, hrun⟩ => ⟨hiff.mp ⟨hout, hcon⟩, ?_⟩, fun ⟨hlt, hrun⟩ => ?_⟩
        · exact (ih hw').mp (hcon ▸ hrun)
        · obtain ⟨hout, hcon⟩ := hiff.mpr hlt
          exact ⟨hout, hcon, hcon ▸ (ih hw').mpr hrun⟩

end

/-- A run of list operations refines the run on sequences if and only if no length of a
list of elements of size zero wraps in it. -/
theorem rawList_refines_iff (build : Build) {vt : VTable} {α : Type} (E : Elements vt α)
    (ops : List (Op vt × Memory)) :
    Refines build E World.empty [] ops ↔ NoWrap build E World.empty ops :=
  refines_iff_noWrap World.ok_empty

/-! ### A list of units that is doubled until its length wraps -/

def release : Build := ⟨false⟩

def unitVTable : VTable where
  size := 0
  align := 1
  cloneFn := none
  eqFn _ _ := true
  align_pos := Nat.one_pos
  size_le := by decide

def units : Elements unitVTable Unit where
  decode _ := ()
  eq _ _ := true
  clone _ hf := by cases hf
  eqFn _ _ := rfl

/-- `n` times the last list, which is number `k`, concatenated with itself. -/
def doublings (k n : ℕ) : List (Op unitVTable × Memory) :=
  (List.range' k n).map fun i => (.concat i i, fun _ => 0)

def doubledUnits : List (Op unitVTable × Memory) :=
  (.new, fun _ => 0) :: (.push 0 Fin.elim0, fun _ => 0) :: doublings 0 64

theorem extend_units (fresh : Memory) (l other : RawList) :
    l.extend release unitVTable fresh other =
      .ok { l with len := (l.len + other.len) % usizeBound } := by
  by_cases hlt : l.len + other.len < usizeBound
  · simp [RawList.extend, unitVTable, Build.usize, hlt, Nat.mod_eq_of_lt hlt, bind, Except.bind,
      pure, Except.pure]
  · simp [RawList.extend, unitVTable, Build.usize, release, hlt, bind, Except.bind, pure,
      Except.pure]

theorem doublings_wrap {n k : ℕ} {w : World} {l : RawList} (hn : k + n = 64) (hpos : 0 < n)
    (hheld : w.held = []) (hlen : w.lists.length = k + 1) (hl : w.lists[k]? = some l)
    (hk : l.len = 2 ^ k) : ¬ NoWrap release units w (doublings k n) := by
  induction n generalizing k w l with
  | zero => omega
  | succ n ih =>
    have hlt : 2 ^ k < usizeBound := Nat.pow_lt_pow_right (by omega) (by omega)
    have hstep : step release (fun _ => 0) w (.concat k k : Op unitVTable) =
        .ok (.handle w.lists.length, { w with lists := w.lists ++
          [{ RawList.new unitVTable with len := (2 ^ k + 2 ^ k) % usizeBound }] }) := by
      simp [step, concat_eq hheld hl hl, extend_units, hk, RawList.new, Nat.mod_eq_of_lt hlt,
        bind, Except.bind, pure, Except.pure]
    have hrun : doublings k (n + 1) = (.concat k k, fun _ => 0) :: doublings (k + 1) n := by
      simp [doublings, List.range'_succ]
    have hnew : newLen (w.contents units) (.concat k k : Op unitVTable) = 2 ^ (k + 1) := by
      simp [newLen, World.getElem?_contents, hl, hk, Nat.pow_succ]
      omega
    rw [hrun]
    unfold NoWrap
    rw [hstep]
    rintro ⟨hwrap, hrest⟩
    have hsmall := hwrap rfl
    rw [hnew] at hsmall
    have hk63 : k + 1 < 64 := (Nat.pow_lt_pow_iff_right (by omega)).mp hsmall
    have hlen' : (2 ^ k + 2 ^ k) % usizeBound = 2 ^ (k + 1) := by
      rw [← Nat.two_mul, ← Nat.pow_succ', Nat.mod_eq_of_lt hsmall]
    exact ih (k := k + 1) (w := { w with lists := w.lists ++
        [{ RawList.new unitVTable with len := (2 ^ k + 2 ^ k) % usizeBound }] })
      (by omega) (by omega) hheld (by simp [hlen])
      (by rw [← hlen]; exact List.getElem?_concat_length) hlen' hrest

theorem doubledUnits_not_refines :
    ¬ Refines release units World.empty [] doubledUnits := by
  intro href
  have hwrap := (refines_iff_noWrap World.ok_empty).mp href
  obtain ⟨-, -, hwrap⟩ := hwrap
  exact doublings_wrap (l := { RawList.new unitVTable with len := 1 }) rfl (by decide) rfl rfl rfl
    rfl hwrap

end Roto.Value
