import RotoCompiler.Lib.Trimming
import RotoCompiler.Mir.Exec

/-!
# Dead code elimination (mir/dead_code.rs)

Nothing stands for a panic of the pass, or for a loop that ran out of rounds.
-/

namespace Roto.Mir

/-- Where an instruction that ends a block leads to. -/
def Instruction.successors : Instruction → Option (List LabelRef)
  | .jump lbl => some [lbl]
  | .switch _ branches default => some (branches.map (·.2) ++ default.toList)
  | .ret _ => some []
  | _ => none

namespace DeadCode

abbrev State := List LabelRef

def State.add (state : State) (lbl : LabelRef) : State :=
  match state.find? (· == lbl) with
  | some _ => state
  | none => state ++ [lbl]

/-- The loop over the instructions of a block, from the one with index `i`. -/
def finalInstruction (state : State) : ℕ → List Instruction → Option (State × ℕ)
  | _, [] => none
  | i, inst :: rest =>
    match inst with
    | .jump lbl => some (state.add lbl, i)
    | .switch _ branches default =>
      let state := branches.foldl (fun state branch => state.add branch.2) state
      match default with
      | some default => some (state.add default, i)
      | none => some (state, i)
    | .ret _ => some (state, i)
    | _ => finalInstruction state (i + 1) rest

def processBlock (state : State) (block : Block) : Option (State × Block) := do
  let (state, i) ← finalInstruction state 0 block.instructions
  return (state, { block with instructions := block.instructions.take (i + 1) })

def processLoop : ℕ → State → ℕ → List Block → Option (State × List Block)
  | 0, _, _, _ => none
  | fuel + 1, state, i, blocks =>
    if _ : i < state.length then do
      let lbl := state[i]
      let k ← blocks.findIdx? (·.label == lbl)
      let block ← blocks[k]?
      let (state, block) ← processBlock state block
      processLoop fuel state (i + 1) (blocks.set k block)
    else some (state, blocks)

def processItem (fuel : ℕ) (item : Item) : Option Item := do
  let entry ← item.blocks[0]?
  let (state, blocks) ← processLoop fuel (State.add [] entry.label) 0 item.blocks
  return { item with blocks := blocks.filter fun b => state.contains b.label }

end DeadCode

def eliminateDeadCode (fuel : ℕ) (items : List Item) : Option (List Item) :=
  items.mapM (DeadCode.processItem fuel)

/-! ### Runs of an item -/

/-- The first branch for the number, or else the default. Without a default, the last branch is
taken for it. -/
def branch (branches : List (ℕ × LabelRef)) (default : Option LabelRef) (n : ℕ) : Option LabelRef :=
  ((branches.find? fun b => b.1 == n).map (·.2)).or (default.or (branches.getLast?.map (·.2)))

theorem branch_mem {branches : List (ℕ × LabelRef)} {default : Option LabelRef} {n : ℕ}
    {l : LabelRef} (h : branch branches default n = some l) :
    l ∈ branches.map (·.2) ++ default.toList := by
  unfold branch at h
  rcases Option.or_eq_some_iff.mp h with h | ⟨-, h⟩
  · obtain ⟨b, hb, rfl⟩ := Option.map_eq_some_iff.mp h
    exact List.mem_append_left _ (List.mem_map_of_mem (List.mem_of_find?_eq_some hb))
  · rcases Option.or_eq_some_iff.mp h with h | ⟨-, h⟩
    · exact List.mem_append_right _ (Option.mem_toList.mpr h)
    · obtain ⟨b, hb, rfl⟩ := Option.map_eq_some_iff.mp h
      exact List.mem_append_left _ (List.mem_map_of_mem (List.mem_of_getLast? hb))

variable {A H : Type}

def goto (number : Held A → Option ℕ) (s : State A H) : Instruction → Option LabelRef
  | .jump lbl => some lbl
  | .switch examinee branches default => (number (s.vars examinee)).bind (branch branches default)
  | _ => none

/-- `number` gives the integer that a value is for a switch. -/
def Machine.flow (m : Machine A H) (number : Held A → Option ℕ) :
    Trimming.Machine LabelRef Instruction (State A H) where
  targets := Instruction.successors
  step := m.step
  goto := goto number
  goto_mem s i l ls hls hl := by
    cases i with
    | jump lbl =>
      obtain rfl := Option.some.inj hls
      rw [← Option.some.inj hl]
      exact List.mem_singleton_self lbl
    | switch examinee branches default =>
      obtain rfl := Option.some.inj hls
      obtain ⟨n, -, hbranch⟩ := Option.bind_eq_some_iff.mp hl
      exact branch_mem hbranch
    | assign dest ty value => cases hls
    | setDiscriminant dest ty variant => cases hls
    | ret var => cases hl
    | drop val ty => cases hls

def codeOf (blocks : List Block) (l : LabelRef) : Option (List Instruction) :=
  (blocks.find? fun b => b.label == l).map (·.instructions)

/-- The instructions that an item executes, each with the state before it, in a run that has
`n` of them or fewer. -/
def Item.trace (m : Machine A H) (number : Held A → Option ℕ) (item : Item) (n : ℕ)
    (s : State A H) : List (Instruction × State A H) :=
  match item.blocks.head? with
  | none => []
  | some entry => (m.flow number).trace (codeOf item.blocks) n (entry.instructions, s)

/-- The block is reachable from the entry block. -/
def Item.Reaches (item : Item) (l : LabelRef) : Prop :=
  ∃ entry, item.blocks.head? = some entry ∧
    Trimming.Reaches Instruction.successors (codeOf item.blocks) entry.label l

/-- What the pass takes for granted. -/
structure Item.WellFormed (item : Item) : Prop where
  entry : item.blocks ≠ []
  distinct : (item.blocks.map (·.label)).Nodup
  terminated : ∀ b ∈ item.blocks, item.Reaches b.label →
    ∃ i ∈ b.instructions, i.successors.isSome
  labels : ∀ b ∈ item.blocks, ∀ i ∈ b.instructions, ∀ ls, i.successors = some ls →
    ∀ l ∈ ls, l ∈ item.blocks.map (·.label)

/-- What it needs: code that is not reachable may lead anywhere. -/
structure Item.Closed (item : Item) : Prop where
  entry : item.blocks ≠ []
  distinct : (item.blocks.map (·.label)).Nodup
  terminated : ∀ b ∈ item.blocks, item.Reaches b.label →
    ∃ i ∈ b.instructions, i.successors.isSome
  labels : ∀ b ∈ item.blocks, item.Reaches b.label → ∀ i ∈ b.instructions, ∀ ls,
    i.successors = some ls → ∀ l ∈ ls, l ∈ item.blocks.map (·.label)

theorem Item.WellFormed.closed {item : Item} (h : item.WellFormed) : item.Closed where
  entry := h.entry
  distinct := h.distinct
  terminated := h.terminated
  labels b hb _ := h.labels b hb

def Block.trimmed (b : Block) : Block :=
  { b with instructions := Trimming.cut Instruction.successors b.instructions }

open Classical in
/-- The item with its reachable blocks only, each up to the instruction that ends it. -/
noncomputable def Item.trimmed (item : Item) : Item :=
  { item with blocks := (item.blocks.filter fun b => item.Reaches b.label).map Block.trimmed }

/-! ### The pass computes the reachable blocks -/

namespace DeadCode

theorem State.add_eq (state : State) (lbl : LabelRef) :
    state.add lbl = if lbl ∈ state then state else state ++ [lbl] := by
  unfold State.add
  cases h : state.find? (· == lbl) with
  | some l =>
    have hl : l = lbl := by simpa using List.find?_some h
    rw [if_pos (hl ▸ List.mem_of_find?_eq_some h)]
  | none =>
    have hnot : lbl ∉ state := fun hmem => by simpa using List.find?_eq_none.mp h lbl hmem
    rw [if_neg hnot]

/-- Adding labels puts some of them behind the ones that are there, and none twice. -/
theorem State.foldl_add (labels : List LabelRef) (state : State) (h : state.Nodup) :
    ∃ new, labels.foldl State.add state = state ++ new ∧ (state ++ new).Nodup ∧
      (∀ l ∈ labels, l ∈ state ++ new) ∧ ∀ l ∈ new, l ∈ labels := by
  induction labels generalizing state with
  | nil => exact ⟨[], by simp, by simpa using h, by simp, by simp⟩
  | cons lbl labels ih =>
    rw [List.foldl_cons, State.add_eq]
    by_cases hmem : lbl ∈ state
    · rw [if_pos hmem]
      obtain ⟨new, hfold, hnodup, hall, hnew⟩ := ih state h
      refine ⟨new, hfold, hnodup, ?_, fun l hl => List.mem_cons_of_mem lbl (hnew l hl)⟩
      intro l hl
      rcases List.mem_cons.mp hl with rfl | hl
      · exact List.mem_append_left new hmem
      · exact hall l hl
    · rw [if_neg hmem]
      have hnodup' : (state ++ [lbl]).Nodup := by
        rw [List.nodup_append]
        refine ⟨h, List.nodup_singleton lbl, ?_⟩
        intro a ha b hb
        rw [List.mem_singleton.mp hb]
        exact fun heq => hmem (heq ▸ ha)
      obtain ⟨new, hfold, hnodup, hall, hnew⟩ := ih (state ++ [lbl]) hnodup'
      simp only [List.append_assoc, List.singleton_append] at hfold hnodup hall
      refine ⟨lbl :: new, hfold, hnodup, ?_, ?_⟩
      · intro l hl
        rcases List.mem_cons.mp hl with rfl | hl
        · simp
        · exact hall l hl
      · intro l hl
        rcases List.mem_cons.mp hl with rfl | hl
        · exact List.mem_cons_self
        · exact List.mem_cons_of_mem lbl (hnew l hl)

/-- The loop over a block stops at the first instruction that ends it. -/
theorem finalInstruction_eq (state : State) {is : List Instruction} {ls : List LabelRef}
    (h : Trimming.exits Instruction.successors is = some ls) (i : ℕ) :
    ∃ k, finalInstruction state i is = some (ls.foldl State.add state, i + k) ∧
      is.take (k + 1) = Trimming.cut Instruction.successors is := by
  induction is generalizing i with
  | nil => cases h
  | cons inst rest ih =>
    have hpasses (hnone : inst.successors = none)
        (hloop : finalInstruction state i (inst :: rest) = finalInstruction state (i + 1) rest) :
        ∃ k, finalInstruction state i (inst :: rest) = some (ls.foldl State.add state, i + k) ∧
          (inst :: rest).take (k + 1) = Trimming.cut Instruction.successors (inst :: rest) := by
      rw [Trimming.exits_of_passes _ hnone] at h
      obtain ⟨k, hfinal, htake⟩ := ih h (i + 1)
      refine ⟨k + 1, ?_, ?_⟩
      · rw [hloop, hfinal, Nat.add_assoc, Nat.add_comm 1 k]
      · rw [Trimming.cut_of_passes _ hnone, List.take_succ_cons, htake]
    cases inst with
    | jump lbl =>
      obtain rfl := Option.some.inj h
      exact ⟨0, rfl, rfl⟩
    | switch examinee branches default =>
      obtain rfl := Option.some.inj h
      refine ⟨0, ?_, rfl⟩
      rw [List.foldl_append, List.foldl_map]
      cases default with
      | none => rfl
      | some lbl => rfl
    | ret var =>
      obtain rfl := Option.some.inj h
      exact ⟨0, rfl, rfl⟩
    | assign dest ty value => exact hpasses rfl rfl
    | setDiscriminant dest ty variant => exact hpasses rfl rfl
    | drop val ty => exact hpasses rfl rfl

theorem processBlock_eq {state : State} {block : Block} {ls : List LabelRef}
    (h : Trimming.exits Instruction.successors block.instructions = some ls) :
    processBlock state block = some (ls.foldl State.add state, block.trimmed) := by
  obtain ⟨k, hfinal, htake⟩ := finalInstruction_eq state h 0
  simp only [processBlock, hfinal, Option.bind_eq_bind, Option.bind_some, Nat.zero_add, htake]
  rfl

/-- The blocks with the ones whose labels are `done` cut. -/
def trimmedAt (done : List LabelRef) (blocks : List Block) : List Block :=
  blocks.map fun b => if b.label ∈ done then b.trimmed else b

theorem trimmedAt_label (done : List LabelRef) (b : Block) :
    (if b.label ∈ done then b.trimmed else b).label = b.label := by
  split_ifs <;> rfl

theorem findIdx_trimmedAt (done : List LabelRef) (blocks : List Block) (lbl : LabelRef) :
    (trimmedAt done blocks).findIdx? (·.label == lbl) = blocks.findIdx? (·.label == lbl) := by
  unfold trimmedAt
  rw [List.findIdx?_map]
  congr 1
  funext b
  rw [Function.comp_apply, trimmedAt_label]

/-- The one block with a label. -/
theorem findIdx_label {blocks : List Block} {lbl : LabelRef}
    (hmem : lbl ∈ blocks.map (·.label)) :
    ∃ k, ∃ _ : k < blocks.length, blocks.findIdx? (·.label == lbl) = some k ∧
      blocks[k].label = lbl ∧ codeOf blocks lbl = some blocks[k].instructions := by
  cases hk : blocks.findIdx? (·.label == lbl) with
  | none =>
    exfalso
    obtain ⟨b, hb, rfl⟩ := List.mem_map.mp hmem
    simpa using List.findIdx?_eq_none_iff.mp hk b hb
  | some k =>
    obtain ⟨hlt, hlabel, -⟩ := List.findIdx?_eq_some_iff_getElem.mp hk
    refine ⟨k, hlt, rfl, by simpa using hlabel, ?_⟩
    unfold codeOf
    rw [List.find?_eq_bind_findIdx?_getElem?, hk, Option.bind_some, List.getElem?_eq_getElem hlt]
    rfl

/-- Cutting one more block. -/
theorem set_trimmedAt {blocks : List Block} (hdistinct : (blocks.map (·.label)).Nodup)
    {done : List LabelRef} {k : ℕ} (hk : k < blocks.length) :
    (trimmedAt done blocks).set k blocks[k].trimmed
      = trimmedAt (done ++ [blocks[k].label]) blocks := by
  apply List.ext_getElem
  · simp [trimmedAt]
  · intro j hj hj'
    have hlt : j < blocks.length := by simpa [trimmedAt] using hj'
    by_cases hjk : k = j
    · subst hjk
      simp [trimmedAt]
    · have hne : blocks[j].label ≠ blocks[k].label := by
        intro heq
        have hk' : k < (blocks.map (·.label)).length := by simpa using hk
        have hj' : j < (blocks.map (·.label)).length := by simpa using hlt
        have hsame : (blocks.map (·.label))[k] = (blocks.map (·.label))[j] := by
          simpa using heq.symm
        exact hjk (hdistinct.getElem_inj_iff.mp hsame)
      simp [trimmedAt, List.getElem_set_ne hjk, hne]

/-- The loop ends with the blocks that are reachable cut: each round works off one label, and
no label is found twice. -/
theorem processLoop_eq {item : Item} (h : item.Closed) {entry : Block}
    (hentry : item.blocks.head? = some entry) (fuel i : ℕ) (state : State)
    (hfound : Trimming.Found (Trimming.Edge Instruction.successors (codeOf item.blocks))
      entry.label i state)
    (hlabels : ∀ l ∈ state, l ∈ item.blocks.map (·.label)) (hle : i ≤ state.length)
    (hfuel : item.blocks.length < fuel + i) :
    ∃ state', processLoop fuel state i (trimmedAt (state.take i) item.blocks)
        = some (state', trimmedAt state' item.blocks) ∧
      ∀ l, l ∈ state' ↔ item.Reaches l := by
  have hlength : state.length ≤ item.blocks.length := by
    have hall := hfound.length_le hlabels
    rwa [List.length_map] at hall
  induction fuel generalizing i state with
  | zero => omega
  | succ fuel ih =>
    rw [processLoop]
    by_cases hi : i < state.length
    · rw [dif_pos hi]
      obtain ⟨k, hk, hindex, hlabel, hcode⟩ :=
        findIdx_label (hlabels state[i] (List.getElem_mem hi))
      have hreach : item.Reaches item.blocks[k].label := by
        rw [hlabel]
        exact ⟨entry, hentry, hfound.reached _ (List.getElem_mem hi)⟩
      obtain ⟨ls, hls⟩ := Option.isSome_iff_exists.mp (Trimming.exits_isSome
        Instruction.successors (h.terminated _ (List.getElem_mem hk) hreach))
      obtain ⟨new, hfold, hnodup, hall, hnew⟩ := State.foldl_add ls state hfound.nodup
      have hedge : ∀ l', Trimming.Edge Instruction.successors (codeOf item.blocks) state[i] l'
          ↔ l' ∈ ls := by
        intro l'
        constructor
        · rintro ⟨is, ls', his, hexits, hmem⟩
          rw [hcode] at his
          rw [← Option.some.inj his, hls] at hexits
          rwa [Option.some.inj hexits]
        · exact fun hmem => ⟨_, ls, hcode, hls, hmem⟩
      have hfound' := hfound.step hi hnodup (fun l' hl' => hall l' ((hedge l').mp hl'))
        (fun l' hl' => (hedge l').mpr (hnew l' hl'))
      have hlabels' : ∀ l ∈ state ++ new, l ∈ item.blocks.map (·.label) := by
        intro l hl
        rcases List.mem_append.mp hl with hl | hl
        · exact hlabels l hl
        · obtain ⟨inst, hinst, hsucc⟩ := Trimming.exits_subset _ hls
          exact h.labels _ (List.getElem_mem hk) hreach inst hinst ls hsucc l (hnew l hl)
      have hlength' : (state ++ new).length ≤ item.blocks.length := by
        have hall := hfound'.length_le hlabels'
        rwa [List.length_map] at hall
      -- the block was not cut in an earlier round
      have hfresh : item.blocks[k].label ∉ state.take i := by
        rw [hlabel]
        intro hmem
        have hsplit : (state.take (i + 1)).Nodup := hfound.nodup.sublist (List.take_sublist _ _)
        rw [List.take_succ_eq_append_getElem hi, List.nodup_append] at hsplit
        exact hsplit.2.2 _ hmem _ (List.mem_singleton_self _) rfl
      have hblock : (trimmedAt (state.take i) item.blocks)[k]? = some item.blocks[k] := by
        unfold trimmedAt
        rw [List.getElem?_map, List.getElem?_eq_getElem hk, Option.map_some, if_neg hfresh]
      have hset : (trimmedAt (state.take i) item.blocks).set k item.blocks[k].trimmed
          = trimmedAt ((state ++ new).take (i + 1)) item.blocks := by
        rw [set_trimmedAt h.distinct hk, hlabel, List.take_append_of_le_length hi,
          List.take_succ_eq_append_getElem hi]
      obtain ⟨state', hloop, hmem⟩ := ih (i + 1) (state ++ new) hfound' hlabels'
        (by simp only [List.length_append]; omega) (by omega) hlength'
      refine ⟨state', ?_, hmem⟩
      simp only [findIdx_trimmedAt, hindex, Option.bind_eq_bind, Option.bind_some, hblock,
        processBlock_eq hls, hfold, hset]
      exact hloop
    · rw [dif_neg hi, List.take_of_length_le (by omega)]
      refine ⟨state, rfl, fun l => ?_⟩
      rw [hfound.mem_iff (by omega) l]
      constructor
      · exact fun hpath => ⟨entry, hentry, hpath⟩
      · rintro ⟨entry', hentry', hpath⟩
        obtain rfl := Option.some.inj (hentry.symm.trans hentry')
        exact hpath

open Classical in
theorem processItem_closed {item : Item} (h : item.Closed) {fuel : ℕ}
    (hfuel : item.blocks.length < fuel) : processItem fuel item = some item.trimmed := by
  obtain ⟨entry, rest, hblocks⟩ := List.exists_cons_of_ne_nil h.entry
  have hentry : item.blocks.head? = some entry := by rw [hblocks]; rfl
  have hstart : ∀ l ∈ [entry.label], l ∈ item.blocks.map (·.label) := by
    intro l hl
    rw [List.mem_singleton.mp hl, hblocks]
    exact List.mem_cons_self
  obtain ⟨state, hloop, hmem⟩ := processLoop_eq h hentry fuel 0 [entry.label] (.begin _ _) hstart
    (Nat.zero_le _) hfuel
  have hzero : trimmedAt ([entry.label].take 0) item.blocks = item.blocks := by
    unfold trimmedAt
    simp
  rw [hzero] at hloop
  have hkept : (trimmedAt state item.blocks).filter (fun b => state.contains b.label)
      = (item.blocks.filter fun b => item.Reaches b.label).map Block.trimmed := by
    unfold trimmedAt
    rw [List.filter_map]
    have hcond : ((fun b : Block => state.contains b.label) ∘
        fun b => if b.label ∈ state then b.trimmed else b)
          = fun b => decide (item.Reaches b.label) := by
      funext b
      rw [Function.comp_apply, trimmedAt_label]
      simp [hmem]
    rw [hcond]
    apply List.map_congr_left
    intro b hb
    have hb' : b.label ∈ state := (hmem _).mpr (by simpa using (List.mem_filter.mp hb).2)
    rw [if_pos hb']
  have hget : item.blocks[0]? = some entry := by rw [hblocks]; rfl
  have hadd : State.add [] entry.label = [entry.label] := rfl
  simp only [processItem, hget, hadd, hloop, hkept, Option.bind_eq_bind, Option.bind_some]
  rfl

theorem processItem_eq {item : Item} (h : item.WellFormed) {fuel : ℕ}
    (hfuel : item.blocks.length < fuel) : processItem fuel item = some item.trimmed :=
  processItem_closed h.closed hfuel

end DeadCode

/-! ### The pass keeps what an item does -/

namespace Item

theorem mem_trimmed {item : Item} (b' : Block) :
    b' ∈ item.trimmed.blocks ↔ ∃ b ∈ item.blocks, item.Reaches b.label ∧ b' = b.trimmed := by
  unfold Item.trimmed
  simp only [List.mem_map, List.mem_filter, decide_eq_true_eq]
  constructor
  · rintro ⟨b, ⟨hb, hreach⟩, rfl⟩
    exact ⟨b, hb, hreach, rfl⟩
  · rintro ⟨b, hb, hreach, rfl⟩
    exact ⟨b, ⟨hb, hreach⟩, rfl⟩

theorem trimmed_head (item : Item) :
    item.trimmed.blocks.head? = item.blocks.head?.map Block.trimmed := by
  cases hblocks : item.blocks with
  | nil => simp [Item.trimmed, hblocks]
  | cons entry rest =>
    have hreach : item.Reaches entry.label := ⟨entry, by rw [hblocks]; rfl, .refl⟩
    simp [Item.trimmed, hblocks, hreach]

open Classical in
theorem codeOf_trimmed {item : Item} {l : LabelRef} (h : item.Reaches l) :
    codeOf item.trimmed.blocks l
      = (codeOf item.blocks l).map (Trimming.cut Instruction.successors) := by
  unfold codeOf Item.trimmed
  simp only [List.find?_map, List.find?_filter, Option.map_map]
  have hcond : (fun b : Block => decide (decide (item.Reaches b.label) = true ∧
      ((fun b : Block => b.label == l) ∘ Block.trimmed) b = true)) = fun b => b.label == l := by
    funext b
    by_cases hb : b.label = l
    · simp [Block.trimmed, hb, h]
    · simp [Block.trimmed, hb]
  rw [hcond]
  rfl

/-- The blocks are still reachable. -/
theorem Reaches.trimmed {item : Item} {l : LabelRef} (h : item.Reaches l) :
    item.trimmed.Reaches l := by
  obtain ⟨entry, hentry, hpath⟩ := h
  refine ⟨entry.trimmed, by rw [trimmed_head, hentry]; rfl, ?_⟩
  induction hpath with
  | refl => exact Relation.ReflTransGen.refl
  | tail hpath hedge ih =>
    obtain ⟨is, ls, hcode, hexits, hl⟩ := hedge
    refine ih.tail ⟨Trimming.cut Instruction.successors is, ls, ?_, ?_, hl⟩
    · rw [codeOf_trimmed ⟨entry, hentry, hpath⟩, hcode]
      rfl
    · rw [Trimming.exits_cut, hexits]

theorem trimmed_trace {A H : Type} (m : Machine A H) (number : Held A → Option ℕ) (item : Item)
    (n : ℕ) (s : State A H) :
    item.trimmed.trace m number n s = item.trace m number n s := by
  have hhead := item.trimmed_head
  unfold Item.trace
  rw [hhead]
  cases hentry : item.blocks.head? with
  | none => rfl
  | some entry =>
    have htrims : (m.flow number).Trims (codeOf item.blocks) (codeOf item.trimmed.blocks)
        entry.label := fun l hl => codeOf_trimmed ⟨entry, hentry, hl⟩
    have hstart : codeOf item.blocks entry.label = some entry.instructions := by
      obtain ⟨rest, hblocks⟩ := List.head?_eq_some_iff.mp hentry
      rw [hblocks]
      simp [codeOf]
    exact Trimming.Machine.trace_trims htrims hstart n s

end Item

theorem eliminateDeadCode_eq {items : List Item} {fuel : ℕ}
    (h : ∀ item ∈ items, item.Closed ∧ item.blocks.length < fuel) :
    eliminateDeadCode fuel items = some (items.map Item.trimmed) := by
  unfold eliminateDeadCode
  induction items with
  | nil => rfl
  | cons item items ih =>
    have hitem := h item List.mem_cons_self
    have hrest := ih fun item' hmem => h item' (List.mem_cons_of_mem item hmem)
    rw [List.mapM_cons, DeadCode.processItem_closed hitem.1 hitem.2, hrest]
    rfl

/-- A flow graph: all blocks are reachable, and only their last instruction leads on, to blocks
that are there. -/
structure Item.Graph (item : Item) : Prop where
  entry : item.blocks ≠ []
  distinct : (item.blocks.map (·.label)).Nodup
  reachable : ∀ b ∈ item.blocks, item.Reaches b.label
  ends : ∀ b ∈ item.blocks, ∃ is i ls, b.instructions = is ++ [i] ∧
    (∀ j ∈ is, j.successors = none) ∧ i.successors = some ls ∧
    ∀ l ∈ ls, l ∈ item.blocks.map (·.label)

theorem Item.Closed.graph {item : Item} (h : item.Closed) : item.trimmed.Graph where
  entry := by
    obtain ⟨entry, rest, hblocks⟩ := List.exists_cons_of_ne_nil h.entry
    intro hnil
    have hhead := item.trimmed_head
    rw [hnil, hblocks] at hhead
    cases hhead
  distinct := by
    unfold Item.trimmed
    rw [List.map_map]
    exact h.distinct.sublist (List.filter_sublist.map _)
  reachable b' hb' := by
    obtain ⟨b, -, hreach, rfl⟩ := (item.mem_trimmed b').mp hb'
    exact hreach.trimmed
  ends b' hb' := by
    obtain ⟨b, hb, hreach, rfl⟩ := (item.mem_trimmed b').mp hb'
    obtain ⟨ls, hls⟩ := Option.isSome_iff_exists.mp
      (Trimming.exits_isSome Instruction.successors (h.terminated b hb hreach))
    obtain ⟨is, i, hcut, hpasses, hi⟩ := Trimming.cut_eq _ hls
    refine ⟨is, i, ls, hcut, hpasses, hi, ?_⟩
    intro l hl
    obtain ⟨j, hj, hsucc⟩ := Trimming.exits_subset _ hls
    obtain ⟨target, htarget, rfl⟩ := List.mem_map.mp (h.labels b hb hreach j hj ls hsucc l hl)
    have hedge : Trimming.Edge Instruction.successors (codeOf item.blocks) b.label target.label := by
      refine ⟨b.instructions, ls, ?_, hls, hl⟩
      obtain ⟨k, hk, -, hlabel, hcode⟩ := DeadCode.findIdx_label (List.mem_map_of_mem hb)
      have hsame : item.blocks[k] = b :=
        List.inj_on_of_nodup_map h.distinct (List.getElem_mem hk) hb hlabel
      rw [hcode, hsame]
    obtain ⟨entry, hentry, hpath⟩ := hreach
    exact List.mem_map.mpr ⟨target.trimmed, (item.mem_trimmed _).mpr
      ⟨target, htarget, ⟨entry, hentry, hpath.tail hedge⟩, rfl⟩, rfl⟩

/-- The pass ends on each well-formed item, with the reachable blocks cut at their ends, and the
item does what it did. -/
theorem eliminate_dead_code {A H : Type} {item : Item} (h : item.WellFormed) :
    ∃ blocks', (∀ fuel, item.blocks.length < fuel →
        DeadCode.processItem fuel item = some { item with blocks := blocks' }) ∧
      (∀ b', b' ∈ blocks' ↔ ∃ b ∈ item.blocks, item.Reaches b.label ∧ b' = b.trimmed) ∧
      blocks'.Sublist (item.blocks.map Block.trimmed) ∧
      blocks'.head? = item.blocks.head?.map Block.trimmed ∧
      ∀ (m : Machine A H) (number : Held A → Option ℕ) (n : ℕ) (s : State A H),
        Item.trace m number { item with blocks := blocks' } n s = item.trace m number n s :=
  ⟨item.trimmed.blocks, fun _ => DeadCode.processItem_eq h, Item.mem_trimmed,
    List.Sublist.map _ List.filter_sublist, item.trimmed_head,
    fun m number n s => item.trimmed_trace m number n s⟩

/-- Two blocks that loop and a block that returns, with instructions behind the ends of blocks;
the third block is not reachable. -/
def loopItem : Item where
  ty := .function [] ⟨[], .unit⟩
  name := "f"
  scope := 0
  vars := []
  blocks :=
    [ ⟨0, [.switch ⟨0, .tmp 0⟩ [(1, 1)] (some 2), .jump 3]⟩,
      ⟨1, [.ret ⟨0, .tmp 1⟩, .ret ⟨0, .tmp 2⟩]⟩,
      ⟨3, [.jump 0]⟩,
      ⟨2, [.jump 0, .jump 3]⟩ ]
  tmpIdx := 3

theorem loopItem_wellFormed : loopItem.WellFormed where
  entry := by simp [loopItem]
  distinct := by decide
  terminated b hb _ := by
    simp only [loopItem, List.mem_cons, List.not_mem_nil, or_false] at hb
    rcases hb with rfl | rfl | rfl | rfl <;> simp [Instruction.successors]
  labels := by simp [loopItem, Instruction.successors]

theorem eliminate_dead_code_loopItem :
    ∃ blocks', DeadCode.processItem 5 loopItem = some { loopItem with blocks := blocks' } ∧
      blocks'.map (fun b => (b.label, b.instructions.length)) = [(0, 1), (1, 1), (2, 1)] ∧
      ∀ (m : Machine Unit Unit) (number : Held Unit → Option ℕ) (n : ℕ) (s : State Unit Unit),
        Item.trace m number { loopItem with blocks := blocks' } n s
          = loopItem.trace m number n s := by
  obtain ⟨blocks', hprocess, -, -, -, htrace⟩ :=
    eliminate_dead_code (A := Unit) (H := Unit) loopItem_wellFormed
  have hfive := hprocess 5 (by decide)
  refine ⟨blocks', hfive, ?_, htrace⟩
  have hrun : (DeadCode.processItem 5 loopItem).map
      (fun item => item.blocks.map fun b => (b.label, b.instructions.length))
        = some [(0, 1), (1, 1), (2, 1)] := by decide
  rw [hfive] at hrun
  exact Option.some.inj hrun

end Roto.Mir
