import RotoCompiler.Lir.Discriminants
import RotoCompiler.Lir.StructuralEq

/-!
# The bodies of generated equality functions

A body compares one field in each block, and goes on to the block of the next field or to the
one that answers false.
-/

namespace Roto.Lir
open Mir
open Lib (Memory)

variable {α β : Type} {rt : Rt}

/-! ### Whole blocks -/

/-- The computation puts whole blocks behind the ones that are there. -/
structure Adds (m : Lower α) (s : Lowerer) (a : α) (bs : List Block) (new : Queue → List Ty)
    (s' : Lowerer) : Prop where
  run : m s = some (a, s')
  blocks : s'.allBlocks = s.allBlocks ++ bs
  scope : s'.functionScope = s.functionScope
  labels : s.labels ≤ s'.labels
  tmpIdx : s.tmpIdx ≤ s'.tmpIdx
  vars : ∃ vars, s'.vars = s.vars ++ vars ∧ ∀ v ∈ vars, ∃ ty, v.2 = .val ty
  queue : ∀ q, s'.queue q = s.queue q ++ new q

namespace Adds
variable {s s₁ s₂ : Lowerer}

theorem pure (a : α) (s : Lowerer) : Adds (Pure.pure a) s a [] noneNew s where
  run := rfl
  blocks := (List.append_nil _).symm
  scope := rfl
  labels := le_rfl
  tmpIdx := le_rfl
  vars := ⟨[], (List.append_nil _).symm, fun _ h => nomatch h⟩
  queue _ := (List.append_nil _).symm

theorem bind {m : Lower α} {k : α → Lower β} {a : α} {b : β} {bs₁ bs₂ : List Block}
    {new₁ new₂ : Queue → List Ty} (h₁ : Adds m s a bs₁ new₁ s₁)
    (h₂ : Adds (k a) s₁ b bs₂ new₂ s₂) :
    Adds (m >>= k) s b (bs₁ ++ bs₂) (fun q => new₁ q ++ new₂ q) s₂ where
  run := Lower.bind_of h₁.run h₂.run
  blocks := by rw [h₂.blocks, h₁.blocks, List.append_assoc]
  scope := h₂.scope.trans h₁.scope
  labels := h₁.labels.trans h₂.labels
  tmpIdx := h₁.tmpIdx.trans h₂.tmpIdx
  vars := by
    obtain ⟨vars₁, heq₁, hval₁⟩ := h₁.vars
    obtain ⟨vars₂, heq₂, hval₂⟩ := h₂.vars
    refine ⟨vars₁ ++ vars₂, by rw [heq₂, heq₁, List.append_assoc], fun v hv => ?_⟩
    rcases List.mem_append.mp hv with hv | hv
    · exact hval₁ v hv
    · exact hval₂ v hv
  queue q := by rw [h₂.queue, h₁.queue, List.append_assoc]

theorem cast {m : Lower α} {a : α} {bs bs' : List Block} {new new' : Queue → List Ty}
    (h : Adds m s a bs new s₁) (hbs : bs = bs') (hnew : new = new') : Adds m s a bs' new' s₁ := by
  rw [← hbs, ← hnew]
  exact h

/-- A block of straight code and a terminator. -/
theorem block {m : Lower α} {a : α} {code : List Instruction} {new : Queue → List Ty}
    {t : α → Instruction} {lbl : LabelRef}
    (h : Emits m { s with blocks := s.allBlocks, label := lbl, instructions := [] } a code new s₁) :
    Adds (do newBlock lbl; let a ← m; emit (t a)) s () [⟨lbl, code ++ [t a]⟩] new
      { s₁ with instructions := s₁.instructions ++ [t a] } where
  run := by
    have hnew : newBlock lbl s =
        some ((), { s with blocks := s.allBlocks, label := lbl, instructions := [] }) := rfl
    exact Lower.bind_of hnew (Lower.bind_of h.run rfl)
  blocks := by
    have hblocks := h.blocks
    have hlabel := h.label
    have hinstructions := h.instructions
    rw [List.nil_append] at hinstructions
    show s₁.blocks ++ [⟨s₁.label, s₁.instructions ++ [t a]⟩] = _
    rw [hblocks, hlabel, hinstructions]
  scope := h.scope
  labels := h.labels.ge
  tmpIdx := h.tmpIdx
  vars := h.vars
  queue := h.queue

end Adds

theorem wrapInternals_adds (n : ℕ) (s : Lowerer) :
    Adds (wrapInternals n) s (List.range' s.labels n) [] noneNew
      { s with labels := s.labels + n } where
  run := wrapInternals_run n s
  blocks := (List.append_nil _).symm
  scope := rfl
  labels := Nat.le_add_right _ _
  tmpIdx := le_rfl
  vars := ⟨[], (List.append_nil _).symm, fun _ h => nomatch h⟩
  queue q := by cases q <;> exact (List.append_nil _).symm

theorem unwrap_adds (a : α) (s : Lowerer) : Adds (unwrap (some a)) s a [] noneNew s where
  run := rfl
  blocks := (List.append_nil _).symm
  scope := rfl
  labels := le_rfl
  tmpIdx := le_rfl
  vars := ⟨[], (List.append_nil _).symm, fun _ h => nomatch h⟩
  queue _ := (List.append_nil _).symm

theorem Emits.unwrap (a : α) (s : Lowerer) : Emits (unwrap (some a)) s a [] noneNew s where
  run := rfl
  blocks := rfl
  label := rfl
  instructions := (List.append_nil _).symm
  scope := rfl
  labels := rfl
  tmpIdx := le_rfl
  vars := ⟨[], (List.append_nil _).symm, fun _ h => nomatch h⟩
  queue _ := (List.append_nil _).symm
  straight _ h := nomatch h

theorem returnBool_adds (lbl : LabelRef) (b : Bool) (s : Lowerer) :
    ∃ s', Adds (returnBool lbl b) s () [⟨lbl, [.ret (some (.value (.bool b)))]⟩] noneNew s' ∧
      s'.labels = s.labels := by
  have hpure := Emits.pure () { s with blocks := s.allBlocks, label := lbl, instructions := [] }
  have hblock := Adds.block (t := fun _ => .ret (some (.value (.bool b)))) hpure
  exact ⟨_, hblock, rfl⟩

/-! ### Runs through blocks -/

/-- From the code of one block the machine comes to the code of another, and nothing but new
temporaries changes. -/
def Goes (p : Program) (env : Externs) (s : Lowerer) (B : List Block) (is : List Instruction)
    (l : Locals) (is' : List Instruction) : Prop :=
  ∃ l', RegsKept s l.regs l'.regs ∧ l'.mem = l.mem ∧ l'.events = l.events ∧
    ∀ callers top, Steps p env (.running ⟨B, is, l, callers, top⟩)
      (.running ⟨B, is', l', callers, top⟩)

section
variable {p : Program} {env : Externs} {s s₁ : Lowerer} {B : List Block}
  {is is' is'' : List Instruction} {l : Locals}

theorem Goes.refl (s : Lowerer) (is : List Instruction) (l : Locals) : Goes p env s B is l is :=
  ⟨l, fun _ _ => rfl, rfl, rfl, fun _ _ => Relation.ReflTransGen.refl⟩

theorem Goes.trans (h : Goes p env s B is l is') (hscope : s₁.functionScope = s.functionScope)
    (hle : s.tmpIdx ≤ s₁.tmpIdx)
    (hnext : ∀ l', RegsKept s l.regs l'.regs → l'.mem = l.mem → Goes p env s₁ B is' l' is'') :
    Goes p env s B is l is'' := by
  obtain ⟨l', hkept, hmem, hevents, hsteps⟩ := h
  obtain ⟨l'', hkept', hmem', hevents', hsteps'⟩ := hnext l' hkept hmem
  refine ⟨l'', fun v hv => ?_, hmem'.trans hmem, hevents'.trans hevents, fun callers top => ?_⟩
  · exact (hkept' v (hv.mono hscope hle)).trans (hkept v hv)
  · exact (hsteps callers top).trans (hsteps' callers top)

theorem Goes.mono (h : Goes p env s₁ B is l is') (hscope : s₁.functionScope = s.functionScope)
    (hle : s.tmpIdx ≤ s₁.tmpIdx) : Goes p env s B is l is' := by
  obtain ⟨l', hkept, hrest⟩ := h
  exact ⟨l', fun v hv => hkept v (hv.mono hscope hle), hrest⟩

theorem Goes.jump {lbl : LabelRef} {rest : List Instruction} (h : findBlock B lbl = some is) :
    Goes p env s B (.jump lbl :: rest) l is :=
  ⟨l, fun _ _ => rfl, rfl, rfl, fun _ _ => .head (step_jump h) Relation.ReflTransGen.refl⟩

/-- After code that computes the examinee of a switch. -/
theorem Goes.switch {code : List Instruction} {out : Operand} {x : IrValue}
    {branches : List (ℕ × LabelRef)} {default : LabelRef} (h : Gives p env s code l out x)
    (hfind : findBlock B (((branches.find? fun b => b.1 = x.bits).map (·.2)).getD default) =
      some is) :
    Goes p env s B (code ++ [.switch out branches default]) l is := by
  obtain ⟨l', hruns, hmem, hevents, hout⟩ := h
  refine ⟨l', hruns.kept, hmem, hevents, fun callers top => ?_⟩
  exact (hruns.executes B [.switch out branches default] callers top).trans
    (.head (step_switch hout hfind) Relation.ReflTransGen.refl)

/-- After code that computes something that is used later. -/
theorem Goes.after {m : Lower α} {c : α} {new : Queue → List Ty} {code : List Instruction}
    {out : Operand} {x : IrValue} (hemits : Emits m s c code new s₁) (h : Gives p env s code l out x)
    (hnext : ∀ l', RegsKept s l.regs l'.regs → l'.mem = l.mem → l'.regs.operand out = some x →
      Goes p env s₁ B is l' is') : Goes p env s B (code ++ is) l is' := by
  obtain ⟨l', hruns, hmem, hevents, hout⟩ := h
  have hcode : Goes p env s B (code ++ is) l is :=
    ⟨l', hruns.kept, hmem, hevents, fun callers top => hruns.executes B is callers top⟩
  obtain ⟨l'', hkept', hmem', hevents', hsteps'⟩ := hnext l' hruns.kept hmem hout
  refine ⟨l'', fun v hv => ?_, hmem'.trans hmem, hevents'.trans hevents, fun callers top => ?_⟩
  · exact (hkept' v (hemits.old hv)).trans (hruns.kept v hv)
  · exact (hruns.executes B is callers top).trans (hsteps' callers top)

theorem Goes.switch_bool {code : List Instruction} {out : Operand} {b : Bool}
    {next falseLbl : LabelRef} (h : Gives p env s code l out (.bool b))
    (hnext : findBlock B next = some is) (hfalse : findBlock B falseLbl = some is') :
    Goes p env s B (code ++ [.switch out [(1, next)] falseLbl]) l (if b then is else is') := by
  cases b with
  | true => exact .switch h hnext
  | false => exact .switch h hfalse

end

/-! ### Blocks -/

def Block.targets (b : Block) : List LabelRef := b.instructions.flatMap Instruction.targets

theorem targets_of_straight {i : Instruction} (h : i.isTerminator = false) : i.targets = [] := by
  cases i <;> first | rfl | cases h

section
variable {code : List Instruction} {t : Instruction} (hcode : ∀ i ∈ code, i.isTerminator = false)
include hcode

theorem targets_block (lbl : LabelRef) : Block.targets ⟨lbl, code ++ [t]⟩ = t.targets := by
  have hnone : code.flatMap Instruction.targets = [] := by
    rw [List.flatMap_eq_nil_iff]
    exact fun i hi => targets_of_straight (hcode i hi)
  simp [Block.targets, hnone]

theorem terminated_block (ht : t.isTerminator) (lbl : LabelRef) :
    Block.terminated ⟨lbl, code ++ [t]⟩ = true := by
  simp only [Block.terminated, List.getLast?_concat, Option.any_some, ht, Bool.true_and,
    List.dropLast_concat, List.all_eq_true, Bool.not_eq_true']
  exact hcode

end

/-- The blocks are the ones of their labels. -/
def Found (B bs : List Block) : Prop := ∀ b ∈ bs, findBlock B b.label = some b.instructions

theorem Found.find {B bs : List Block} {lbl : LabelRef} (h : Found B bs)
    (hmem : lbl ∈ bs.map Block.label) : ∃ is, findBlock B lbl = some is := by
  obtain ⟨b, hb, rfl⟩ := List.mem_map.mp hmem
  exact ⟨_, h b hb⟩

theorem find_of_nodup {γ κ : Type} [DecidableEq κ] {key : γ → κ} {cs : List γ}
    (h : (cs.map key).Nodup) {c : γ} (hc : c ∈ cs) :
    cs.find? (fun d => key d = key c) = some c := by
  induction cs with
  | nil => cases hc
  | cons d cs ih =>
    rw [List.map_cons, List.nodup_cons] at h
    rcases List.mem_cons.mp hc with rfl | hc
    · exact List.find?_cons_of_pos (by simp)
    · have hne : key d ≠ key c := fun heq => h.1 (heq ▸ List.mem_map_of_mem hc)
      rw [List.find?_cons_of_neg (by simpa using hne)]
      exact ih h.2 hc

theorem found_of_nodup {B : List Block} (h : (B.map Block.label).Nodup) : Found B B := by
  intro b hb
  rw [findBlock, find_of_nodup h hb]
  rfl

/-! ### Fields -/

/-- The comparison of a field of two values. -/
theorem eqField_gives {ty : Ty} (h : Sized rt ty) {left right : Var} {s : Lowerer}
    (hleft : Old s left) (hright : Old s right) (off : ℕ) :
    ∃ out code s', Emits (eqField rt left right off ty) s out code (eqsOf ty) s' ∧
      ∀ (X : Type) (p : Program) (env : Externs) (R : RustValues X env) (l : Locals) (a b : ℕ)
        (v w : Value X), (isGenerated ty → EqAnswers rt R p ty) →
        l.regs.operand (.place left) = some (.pointer a) →
        l.regs.operand (.place right) = some (.pointer b) →
        Holds rt R.holds l.mem ty (a + off) v → Holds rt R.holds l.mem ty (b + off) w →
        Gives p env s code l out (.bool (Value.eq rt R.eq v w)) := by
  obtain ⟨l₁, code₁, s₁, hemits₁, hold₁, hgives₁⟩ := offset_gives hleft off
  obtain ⟨r₁, code₂, s₂, hemits₂, hold₂, hgives₂⟩ := offset_gives (hemits₁.old hright) off
  obtain ⟨out, code, s', hemits, hgives⟩ := @callEqByPtr_gives rt ty h s₂ l₁ r₁ hold₂
  have hall := hemits₁.bind (k := fun left => do
    let right ← offset right off
    callEqByPtr rt left right ty) (hemits₂.bind hemits)
  refine ⟨out, code₁ ++ (code₂ ++ code), s', hall.cast rfl rfl, ?_⟩
  intro X p env R l a b v w hf ha hb hv hw
  refine (hgives₁ p env l a ha).append hemits₁ fun l' hkept hmem ha' => ?_
  have hb' := (hkept.operand hright).trans hb
  refine (hgives₂ p env l' b hb').append hemits₂ fun l'' hkept' hmem' hb'' => ?_
  have ha'' := (hkept'.operand hold₁).trans ha'
  rw [← hmem, ← hmem'] at hv hw
  exact hgives X p env R l'' _ _ v w hf ha'' hb'' hv hw

/-- Blocks with labels from `n` on that compare fields one after the other, and go to the label
after them or to `falseLbl`. -/
structure Compares (rt : Rt) (s : Lowerer) (left right : Var) (falseLbl n : LabelRef)
    (fields : List (ℕ × Ty)) (bs : List Block) : Prop where
  labels : bs.map Block.label = List.range' n fields.length
  terminated : ∀ b ∈ bs, b.terminated
  targets : ∀ b ∈ bs, ∀ t ∈ b.targets, t = falseLbl ∨ t ∈ List.range' n (fields.length + 1)
  goes : ∀ (X : Type) (p : Program) (env : Externs) (R : RustValues X env) (B : List Block)
    (l : Locals) (a b : ℕ) (vs ws : List (Value X)) (is isTrue isFalse : List Instruction),
    (∀ f ∈ fields, isGenerated f.2 → EqAnswers rt R p f.2) → Found B bs →
    findBlock B n = some is → findBlock B (n + fields.length) = some isTrue →
    findBlock B falseLbl = some isFalse →
    l.regs.operand (.place left) = some (.pointer a) →
    l.regs.operand (.place right) = some (.pointer b) →
    HoldsAll rt R.holds l.mem fields a vs → HoldsAll rt R.holds l.mem fields b ws →
    Goes p env s B is l (if Value.eqAll rt R.eq vs ws then isTrue else isFalse)

theorem Compares.first {s : Lowerer} {left right : Var} {falseLbl n : LabelRef}
    {fields : List (ℕ × Ty)} {B bs : List Block} {isTrue : List Instruction}
    (h : Compares rt s left right falseLbl n fields bs) (hfound : Found B bs)
    (hlast : findBlock B (n + fields.length) = some isTrue) : ∃ is, findBlock B n = some is := by
  cases fields with
  | nil => exact ⟨isTrue, hlast⟩
  | cons f fields =>
    apply hfound.find
    rw [h.labels]
    simp

theorem eqFields_cons (left right : Var) (falseLbl lbl next : LabelRef) (lbls : List LabelRef)
    (off : ℕ) (ty : Ty) (fields : List (Option ℕ × Ty)) :
    eqFields rt left right falseLbl (lbl :: next :: lbls) ((some off, ty) :: fields) = (do
      newBlock lbl
      let out ← eqField rt left right off ty
      emit (.switch out [(1, next)] falseLbl)) >>= fun _ =>
        eqFields rt left right falseLbl (next :: lbls) fields := by
  simp only [eqFields, bind_assoc]

/-- The loop over the fields, for fields that take space. -/
theorem eqFields_adds {left right : Var} (hleft : ∀ s, Old s left) (hright : ∀ s, Old s right)
    (falseLbl : LabelRef) {fields : List (ℕ × Ty)} (hsized : ∀ f ∈ fields, Sized rt f.2)
    (n : LabelRef) (s : Lowerer) :
    ∃ bs s', Adds (eqFields rt left right falseLbl (List.range' n (fields.length + 1))
        (fields.map fun f => (some f.1, f.2))) s () bs (fun q => fields.flatMap fun f => eqsOf f.2 q)
        s' ∧ s'.labels = s.labels ∧ Compares rt s left right falseLbl n fields bs := by
  induction fields generalizing n s with
  | nil =>
    refine ⟨[], s, .pure () s, rfl, rfl, fun _ h => (nomatch h), fun _ h => (nomatch h), ?_⟩
    intro X p env R B l a b vs ws is isTrue isFalse _ _ hfirst hlast _ _ _ hvs hws
    cases hvs
    cases hws
    obtain rfl := Option.some.inj (hfirst.symm.trans hlast)
    exact .refl s is l
  | cons f fields ih =>
    obtain ⟨off, ty⟩ := f
    obtain ⟨hty, hfields⟩ := List.forall_mem_cons.mp hsized
    obtain ⟨out, code, s₁, hemits, hgives⟩ := eqField_gives hty
      (hleft { s with blocks := s.allBlocks, label := n, instructions := [] }) (hright _) off
    have hblock := Adds.block (t := fun out => .switch out [(1, n + 1)] falseLbl) hemits
    obtain ⟨bs, s', hadds, hlabels, hcompares⟩ := ih hfields (n + 1)
      { s₁ with instructions := s₁.instructions ++ [.switch out [(1, n + 1)] falseLbl] }
    let b₀ : Block := ⟨n, code ++ [.switch out [(1, n + 1)] falseLbl]⟩
    refine ⟨b₀ :: bs, s', ?_, hlabels.trans hemits.labels, ?_, ?_, ?_, ?_⟩
    · have hall := hblock.bind (k := fun _ => eqFields rt left right falseLbl
        (List.range' (n + 1) (fields.length + 1)) (fields.map fun f => (some f.1, f.2))) hadds
      have hcons := @eqFields_cons rt left right falseLbl n (n + 1)
        (List.range' (n + 2) fields.length) off ty (fields.map fun f => (some f.1, f.2))
      exact hcons ▸ hall
    · rw [List.map_cons, hcompares.labels, List.length_cons, List.range'_succ]
    · intro b hb
      rcases List.mem_cons.mp hb with rfl | hb
      · exact terminated_block hemits.straight rfl n
      · exact hcompares.terminated b hb
    · intro b hb t ht
      rw [List.length_cons, List.range'_succ, List.mem_cons]
      rcases List.mem_cons.mp hb with rfl | hb
      · rw [targets_block hemits.straight] at ht
        have hnext : n + 1 ∈ List.range' (n + 1) (fields.length + 1) := by simp
        rcases List.mem_cons.mp ht with rfl | ht
        · exact .inr (.inr hnext)
        · exact .inl (List.mem_singleton.mp ht)
      · rcases hcompares.targets b hb t ht with rfl | htarget
        · exact .inl rfl
        · exact .inr (.inr htarget)
    · intro X p env R B l a b vs ws is isTrue isFalse hf hfound hfirst hlast hfalse ha hb hvs hws
      cases hvs with
      | cons hv hvs =>
      cases hws with
      | cons hw hws =>
      rename_i v vs w ws
      obtain ⟨hthis, hrest⟩ := List.forall_mem_cons.mp hfound
      obtain rfl := Option.some.inj (hfirst.symm.trans hthis)
      rw [List.length_cons, ← Nat.add_assoc, Nat.add_right_comm] at hlast
      obtain ⟨is', hnext⟩ := hcompares.first hrest hlast
      have hgive := hgives X p env R l a b _ _ (hf _ List.mem_cons_self) ha hb hv hw
      have hgo := Goes.switch_bool hgive hnext hfalse
      refine hgo.trans hemits.scope hemits.tmpIdx fun l' hkept hmem => ?_
      rw [Value.eqAll]
      cases Value.eq rt R.eq v w with
      | false => exact .refl _ isFalse l'
      | true =>
        rw [← hmem] at hvs hws
        have ha' := (hkept.operand (hleft s)).trans ha
        have hb' := (hkept.operand (hright s)).trans hb
        exact hcompares.goes X p env R B l' a b vs ws is' isTrue isFalse
          (fun f hfields => hf f (List.mem_cons_of_mem _ hfields)) hrest hnext hlast hfalse ha' hb'
          hvs hws

theorem getLast?_range' (n k : ℕ) : (List.range' n (k + 1)).getLast? = some (n + k) := by
  rw [List.range'_1_concat, List.getLast?_concat]

/-- The blocks for some fields, and the one after them that answers true. -/
structure Chain (rt : Rt) (s : Lowerer) (left right : Var) (falseLbl n : LabelRef)
    (fields : List (ℕ × Ty)) (bs : List Block) : Prop where
  labels : bs.map Block.label = List.range' n (fields.length + 1)
  terminated : ∀ b ∈ bs, b.terminated
  targets : ∀ b ∈ bs, ∀ t ∈ b.targets, t = falseLbl ∨ t ∈ bs.map Block.label
  goes : ∀ (X : Type) (p : Program) (env : Externs) (R : RustValues X env) (B : List Block)
    (l : Locals) (a b : ℕ) (vs ws : List (Value X)) (is isFalse : List Instruction),
    (∀ f ∈ fields, isGenerated f.2 → EqAnswers rt R p f.2) → Found B bs →
    findBlock B n = some is → findBlock B falseLbl = some isFalse →
    l.regs.operand (.place left) = some (.pointer a) →
    l.regs.operand (.place right) = some (.pointer b) →
    HoldsAll rt R.holds l.mem fields a vs → HoldsAll rt R.holds l.mem fields b ws →
    Goes p env s B is l
      (if Value.eqAll rt R.eq vs ws then [.ret (some (.value (.bool true)))] else isFalse)

theorem eqChain_adds {left right : Var} (hleft : ∀ s, Old s left) (hright : ∀ s, Old s right)
    (falseLbl : LabelRef) {fields : List (ℕ × Ty)} (hsized : ∀ f ∈ fields, Sized rt f.2)
    (n : LabelRef) (s : Lowerer) :
    ∃ bs s', Adds (eqFields rt left right falseLbl (List.range' n (fields.length + 1))
        (fields.map fun f => (some f.1, f.2)) >>= fun _ =>
          unwrap (List.range' n (fields.length + 1)).getLast? >>= fun last => returnBool last true)
        s () bs (fun q => fields.flatMap fun f => eqsOf f.2 q) s' ∧ s'.labels = s.labels ∧
      Chain rt s left right falseLbl n fields bs := by
  obtain ⟨bs, s₁, hadds, hlabels, hcompares⟩ := eqFields_adds hleft hright falseLbl hsized n s
  obtain ⟨s₂, hreturn, hlabels'⟩ := returnBool_adds (n + fields.length) true s₁
  have hend := (unwrap_adds (n + fields.length) s₁).bind
    (k := fun last => returnBool last true) hreturn
  rw [← getLast?_range'] at hend
  let last : Block := ⟨n + fields.length, [.ret (some (.value (.bool true)))]⟩
  have hbs : (bs ++ [last]).map Block.label = List.range' n (fields.length + 1) := by
    rw [List.map_append, hcompares.labels, List.range'_1_concat]
    rfl
  refine ⟨bs ++ [last], s₂, (hadds.bind hend).cast rfl ?_, hlabels'.trans hlabels, hbs, ?_, ?_, ?_⟩
  · funext q
    simp [noneNew]
  · intro b hb
    rcases List.mem_append.mp hb with hb | hb
    · exact hcompares.terminated b hb
    · obtain rfl := List.mem_singleton.mp hb
      rfl
  · intro b hb t ht
    rw [hbs]
    rcases List.mem_append.mp hb with hb | hb
    · exact hcompares.targets b hb t ht
    · obtain rfl := List.mem_singleton.mp hb
      cases ht
  · intro X p env R B l a b vs ws is isFalse hf hfound hfirst hfalse ha hb hvs hws
    obtain ⟨hbs, hlast⟩ := List.forall_mem_append.mp hfound
    exact hcompares.goes X p env R B l a b vs ws is _ isFalse hf hbs hfirst
      (hlast last (List.mem_singleton_self last)) hfalse ha hb hvs hws

theorem placed_types {tys : List Ty} {ls : List Layout} (h : layoutsOf rt tys = some ls)
    (b : LayoutBuilder) : (((b.placed ls).map asU32).zip tys).map (·.2) = tys := by
  apply List.map_snd_zip
  rw [List.length_map, LayoutBuilder.length_placed, layoutsOf_length h]

/-! ### Variants -/

theorem eqVariant_eq {tys : List Ty} {fields : List (ℕ × Ty)} (left right : Var)
    (falseLbl variantLbl : LabelRef) (h : eqVariantFields rt tys = some fields) :
    eqVariant rt left right falseLbl variantLbl tys =
      wrapInternals (tys.length + 1) >>= fun lbls =>
        (do newBlock variantLbl; let first ← unwrap lbls.head?; emit (.jump first)) >>= fun _ =>
          eqFields rt left right falseLbl lbls (fields.map fun f => (some f.1, f.2)) >>= fun _ =>
            unwrap lbls.getLast? >>= fun last => returnBool last true := by
  simp only [eqVariant, h, bind_assoc]

/-- Blocks that compare the fields of two values of one variant. -/
structure ComparesVariant (rt : Rt) (s : Lowerer) (left right : Var) (falseLbl variantLbl : LabelRef)
    (tys : List Ty) (bs : List Block) : Prop where
  labels : bs.map Block.label = variantLbl :: List.range' s.labels (tys.length + 1)
  terminated : ∀ b ∈ bs, b.terminated
  targets : ∀ b ∈ bs, ∀ t ∈ b.targets, t = falseLbl ∨ t ∈ bs.map Block.label
  goes : ∀ (X : Type) (p : Program) (env : Externs) (R : RustValues X env) (B : List Block)
    (l : Locals) (a b : ℕ) (ls : List Layout) (vs ws : List (Value X))
    (is isFalse : List Instruction),
    (∀ t ∈ tys, isGenerated t → EqAnswers rt R p t) → Found B bs →
    findBlock B variantLbl = some is → findBlock B falseLbl = some isFalse →
    l.regs.operand (.place left) = some (.pointer a) →
    l.regs.operand (.place right) = some (.pointer b) → layoutsOf rt tys = some ls →
    (∀ off ∈ LayoutBuilder.tagged.placed ls, off < 2 ^ 32) →
    HoldsAll rt R.holds l.mem ((LayoutBuilder.tagged.placed ls).zip tys) a vs →
    HoldsAll rt R.holds l.mem ((LayoutBuilder.tagged.placed ls).zip tys) b ws →
    Goes p env s B is l
      (if Value.eqAll rt R.eq vs ws then [.ret (some (.value (.bool true)))] else isFalse)

theorem eqVariant_adds {left right : Var} (hleft : ∀ s, Old s left) (hright : ∀ s, Old s right)
    (falseLbl variantLbl : LabelRef) {tys : List Ty} (hsized : ∀ t ∈ tys, Sized rt t)
    (s : Lowerer) :
    ∃ bs s', Adds (eqVariant rt left right falseLbl variantLbl tys) s () bs
        (fun q => tys.flatMap fun t => eqsOf t q) s' ∧
      s'.labels = s.labels + (tys.length + 1) ∧
        ComparesVariant rt s left right falseLbl variantLbl tys bs := by
  obtain ⟨ls, hls⟩ := @layoutsOf_isSome rt tys fun t ht => by
    obtain ⟨l, hl, -⟩ := hsized t ht
    exact Option.isSome_of_eq_some hl
  let fields := ((LayoutBuilder.tagged.placed ls).map asU32).zip tys
  have hfields : eqVariantFields rt tys = some fields := eqVariantFields_eq hls
  have htypes : fields.map (·.2) = tys := placed_types hls .tagged
  have hlength : tys.length = fields.length := by rw [← htypes, List.length_map]
  have hall : ∀ f ∈ fields, Sized rt f.2 :=
    fun f hf => hsized f.2 (htypes ▸ List.mem_map_of_mem hf)
  let s₁ : Lowerer := { s with labels := s.labels + (tys.length + 1) }
  have hjump : Adds (do newBlock variantLbl; let first ← unwrap (some s.labels); emit (.jump first))
      s₁ () [⟨variantLbl, [] ++ [.jump s.labels]⟩] noneNew _ :=
    .block (t := fun first => .jump first) (Emits.unwrap s.labels _)
  obtain ⟨bs, s', hadds, hlabels, hchain⟩ := eqChain_adds hleft hright falseLbl hall s.labels
    { s₁ with blocks := s₁.allBlocks, label := variantLbl, instructions := [.jump s.labels] }
  rw [← hlength] at hadds
  let first : Block := ⟨variantLbl, [.jump s.labels]⟩
  have hbs : (first :: bs).map Block.label = variantLbl :: List.range' s.labels (tys.length + 1) := by
    rw [List.map_cons, hchain.labels, hlength]
  refine ⟨first :: bs, s', ?_, hlabels, hbs, ?_, ?_, ?_⟩
  · rw [eqVariant_eq left right falseLbl variantLbl hfields]
    refine ((wrapInternals_adds (tys.length + 1) s).bind (hjump.bind hadds)).cast rfl ?_
    funext q
    simp only [noneNew, List.nil_append]
    have hmap := List.flatMap_map (fun f : ℕ × Ty => f.2) (fun t => eqsOf t q) fields
    rw [htypes] at hmap
    exact hmap.symm
  · exact List.forall_mem_cons.mpr ⟨rfl, hchain.terminated⟩
  · intro b hb t ht
    rw [hbs]
    rcases List.mem_cons.mp hb with rfl | hb
    · obtain rfl := List.mem_singleton.mp ht
      simp
    · rw [List.mem_cons]
      rw [hlength, ← hchain.labels]
      rcases hchain.targets b hb t ht with htarget | htarget
      · exact .inl htarget
      · exact .inr (.inr htarget)
  · intro X p env R B l a b ls' vs ws is isFalse hf hfound hfirst hfalse ha hb hls' hfit hvs hws
    obtain rfl := Option.some.inj (hls.symm.trans hls')
    have hcast : (LayoutBuilder.tagged.placed ls).zip tys = fields := by
      rw [← map_asU32 hfit]
    obtain ⟨hthis, hrest⟩ := List.forall_mem_cons.mp hfound
    obtain rfl := Option.some.inj (hfirst.symm.trans hthis)
    have hfirst' : s.labels ∈ bs.map Block.label := by
      rw [hchain.labels]
      simp
    obtain ⟨is', hnext⟩ := Found.find hrest hfirst'
    refine (Goes.jump hnext).trans rfl (le_refl s.tmpIdx) fun l' hkept hmem => ?_
    rw [← hmem, hcast] at hvs hws
    have ha' := (hkept.operand (hleft s)).trans ha
    have hb' := (hkept.operand (hright s)).trans hb
    have hanswers : ∀ f ∈ fields, isGenerated f.2 → EqAnswers rt R p f.2 :=
      fun f hmem => hf f.2 (htypes ▸ List.mem_map_of_mem hmem)
    exact hchain.goes X p env R B l' a b vs ws is' isFalse hanswers hrest hnext hfalse ha' hb' hvs hws

/-- Blocks that compare the fields of two values of one of the variants, from `s` to `s'`. -/
structure ComparesVariants (rt : Rt) (s s' : Lowerer) (left right : Var) (falseLbl : LabelRef)
    (lbls : List LabelRef) (variants : List (Identifier × List Ty)) (bs : List Block) : Prop where
  labels : ∀ n ∈ bs.map Block.label, n ∈ lbls ∨ s.labels ≤ n ∧ n < s'.labels
  nodup : lbls.Nodup → (∀ n ∈ lbls, n < s.labels) → (bs.map Block.label).Nodup
  all : lbls ⊆ bs.map Block.label
  terminated : ∀ b ∈ bs, b.terminated
  targets : ∀ b ∈ bs, ∀ t ∈ b.targets, t = falseLbl ∨ t ∈ bs.map Block.label
  goes : ∀ (X : Type) (p : Program) (env : Externs) (R : RustValues X env) (B : List Block)
    (l : Locals) (a b i : ℕ) (lbl : LabelRef) (v : Identifier × List Ty) (ls : List Layout)
    (vs ws : List (Value X)) (is isFalse : List Instruction), lbls[i]? = some lbl →
    variants[i]? = some v → (∀ t ∈ v.2, isGenerated t → EqAnswers rt R p t) → Found B bs →
    findBlock B lbl = some is → findBlock B falseLbl = some isFalse →
    l.regs.operand (.place left) = some (.pointer a) →
    l.regs.operand (.place right) = some (.pointer b) → layoutsOf rt v.2 = some ls →
    (∀ off ∈ LayoutBuilder.tagged.placed ls, off < 2 ^ 32) →
    HoldsAll rt R.holds l.mem ((LayoutBuilder.tagged.placed ls).zip v.2) a vs →
    HoldsAll rt R.holds l.mem ((LayoutBuilder.tagged.placed ls).zip v.2) b ws →
    Goes p env s B is l
      (if Value.eqAll rt R.eq vs ws then [.ret (some (.value (.bool true)))] else isFalse)

theorem eqVariants_adds {left right : Var} (hleft : ∀ s, Old s left) (hright : ∀ s, Old s right)
    (falseLbl : LabelRef) {variants : List (Identifier × List Ty)} {lbls : List LabelRef}
    (hlength : lbls.length = variants.length) (hsized : ∀ v ∈ variants, ∀ t ∈ v.2, Sized rt t)
    (s : Lowerer) :
    ∃ bs s', Adds (eqVariants rt left right falseLbl lbls variants) s () bs
        (fun q => variants.flatMap fun v => v.2.flatMap fun t => eqsOf t q) s' ∧
      ComparesVariants rt s s' left right falseLbl lbls variants bs := by
  induction variants generalizing lbls s with
  | nil =>
    obtain rfl := List.eq_nil_of_length_eq_zero hlength
    refine ⟨[], s, .pure () s, ?_⟩
    exact ⟨fun _ h => (nomatch h), fun _ _ => .nil, List.Subset.refl [], fun _ h => (nomatch h),
      fun _ h => (nomatch h), fun _ _ _ _ _ _ _ _ _ _ _ _ _ _ _ _ h => (nomatch h)⟩
  | cons v variants ih =>
    obtain ⟨name, tys⟩ := v
    obtain ⟨lbl, lbls, rfl⟩ := List.exists_cons_of_length_eq_add_one hlength
    obtain ⟨htys, hvariants⟩ := List.forall_mem_cons.mp hsized
    obtain ⟨bs₁, s₁, hadds₁, hlabels₁, hvariant⟩ :=
      eqVariant_adds hleft hright falseLbl lbl htys s
    obtain ⟨bs₂, s₂, hadds₂, hrest⟩ := ih (Nat.succ.inj hlength) hvariants s₁
    have hmem : ∀ n : ℕ, n ∈ bs₁.map Block.label ↔
        n = lbl ∨ s.labels ≤ n ∧ n < s₁.labels := by
      intro n
      rw [hvariant.labels, List.mem_cons, List.mem_range'_1, hlabels₁]
    have hle : s₁.labels ≤ s₂.labels := hadds₂.labels
    refine ⟨bs₁ ++ bs₂, s₂, (hadds₁.bind hadds₂).cast rfl rfl, ?_, ?_, ?_, ?_, ?_, ?_⟩
    · intro n hn
      rw [List.map_append] at hn
      rcases List.mem_append.mp hn with hn | hn
      · rcases (hmem n).mp hn with rfl | hn
        · exact .inl List.mem_cons_self
        · exact .inr ⟨hn.1, hn.2.trans_le hle⟩
      · rcases hrest.labels n hn with hn | hn
        · exact .inl (List.mem_cons_of_mem _ hn)
        · exact .inr ⟨hadds₁.labels.trans hn.1, hn.2⟩
    · intro hnodup hlt
      obtain ⟨hnotMem, hnodup⟩ := List.nodup_cons.mp hnodup
      obtain ⟨hlbl, hlt⟩ := List.forall_mem_cons.mp hlt
      have hlt₁ : ∀ n ∈ lbls, n < s₁.labels := fun n hn => (hlt n hn).trans_le hadds₁.labels
      rw [List.map_append, List.nodup_append]
      refine ⟨?_, hrest.nodup hnodup hlt₁, ?_⟩
      · rw [hvariant.labels, List.nodup_cons, List.mem_range'_1]
        exact ⟨fun h => absurd h.1 (Nat.not_le_of_lt hlbl), List.nodup_range'⟩
      · rintro n hn₁ _ hn₂ rfl
        have hbefore : n ∉ lbls := by
          intro hn
          rcases (hmem n).mp hn₁ with rfl | hn₁
          · exact hnotMem hn
          · exact absurd hn₁.1 (Nat.not_le_of_lt (hlt n hn))
        have hge : s₁.labels ≤ n := ((hrest.labels n hn₂).resolve_left hbefore).1
        rcases (hmem n).mp hn₁ with rfl | hn₁
        · exact absurd (hadds₁.labels.trans hge) (Nat.not_le_of_lt hlbl)
        · exact absurd hge (Nat.not_le_of_lt hn₁.2)
    · intro n hn
      rw [List.map_append, List.mem_append]
      rcases List.mem_cons.mp hn with rfl | hn
      · exact .inl ((hmem _).mpr (.inl rfl))
      · exact .inr (hrest.all hn)
    · exact List.forall_mem_append.mpr ⟨hvariant.terminated, hrest.terminated⟩
    · intro b hb t ht
      rw [List.map_append, List.mem_append]
      rcases List.mem_append.mp hb with hb | hb
      · rcases hvariant.targets b hb t ht with htarget | htarget
        · exact .inl htarget
        · exact .inr (.inl htarget)
      · rcases hrest.targets b hb t ht with htarget | htarget
        · exact .inl htarget
        · exact .inr (.inr htarget)
    · intro X p env R B l a b i lbl' v ls vs ws is isFalse hlbl hv hf hfound hfirst hfalse ha hb hls
        hfit hvs hws
      obtain ⟨hthis, hothers⟩ := List.forall_mem_append.mp hfound
      cases i with
      | zero =>
        obtain rfl := Option.some.inj hlbl
        obtain rfl := Option.some.inj hv
        exact hvariant.goes X p env R B l a b ls vs ws is isFalse hf hthis hfirst hfalse ha hb hls hfit
          hvs hws
      | succ i =>
        have hgo := hrest.goes X p env R B l a b i lbl' v ls vs ws is isFalse hlbl hv hf hothers hfirst
          hfalse ha hb hls hfit hvs hws
        exact hgo.mono hadds₁.scope hadds₁.tmpIdx

end Roto.Lir
