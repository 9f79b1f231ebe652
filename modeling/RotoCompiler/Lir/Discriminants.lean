import RotoCompiler.Lir.EmittedCode
import RotoCompiler.Lir.Items
import RotoCompiler.Lir.LayoutAgreement
import RotoCompiler.Lir.Values
import RotoCompiler.Mir.Matches

/-!
# Discriminants (lir/lower.rs, clones.rs, drops.rs, eq.rs)

A construction writes the number of the variant as a byte. Matches and the generated functions
read the byte and switch on it, with the numbers of the variants as they are.
-/

namespace Roto.Lir
open Mir
open Ast (MatchArm)

variable {p : Program} {x : Externs}

/-! ### Code that ends in a switch -/

/-- Where a switch goes. -/
def switchTarget (branches : List (ℕ × LabelRef)) (default : LabelRef) (bits : ℕ) : LabelRef :=
  ((branches.find? fun b => b.1 = bits).map (·.2)).getD default

/-- The code ends in a switch, which goes to the label. -/
def JumpsTo (p : Program) (x : Externs) (code : List Instruction) (l : Locals) (label : LabelRef)
    (l' : Locals) : Prop :=
  ∃ init examinee branches default val,
    code = init ++ [.switch examinee branches default] ∧ Executes p x init l l' ∧
      l'.regs.operand examinee = some val ∧ switchTarget branches default val.bits = label

theorem JumpsTo.steps {code : List Instruction} {l l' : Locals} {label : LabelRef}
    (h : JumpsTo p x code l label l') {blocks : List Block} {is : List Instruction}
    (hblock : findBlock blocks label = some is) (callers : List Caller) (top : ℕ) :
    Steps p x (.running ⟨blocks, code, l, callers, top⟩)
      (.running ⟨blocks, is, l', callers, top⟩) := by
  obtain ⟨init, examinee, branches, default, val, rfl, hexec, hval, rfl⟩ := h
  have hstep : step p x ⟨blocks, [.switch examinee branches default], l', callers, top⟩ =
      some (.running ⟨blocks, is, l', callers, top⟩) := step_switch hval hblock
  exact (hexec blocks _ callers top).trans (Relation.ReflTransGen.single hstep)

/-- It goes to one label only. -/
theorem JumpsTo.unique {code : List Instruction} {l l₁ l₂ : Locals} {a b : LabelRef}
    (h₁ : JumpsTo p x code l a l₁) (h₂ : JumpsTo p x code l b l₂) : a = b := by
  obtain ⟨init, examinee, branches, default, val, hcode, hexec, hval, rfl⟩ := h₁
  obtain ⟨init', examinee', branches', default', val', hcode', hexec', hval', rfl⟩ := h₂
  obtain ⟨rfl, hlast⟩ := List.append_inj' (hcode.symm.trans hcode') rfl
  obtain ⟨rfl, rfl, rfl⟩ := Instruction.switch.inj (List.cons.inj hlast).1
  obtain rfl := hexec.unique hexec'
  obtain rfl := Option.some.inj (hval.symm.trans hval')
  rfl

/-! ### The writer -/

/-- A construction of the variant leaves `d` where the discriminant is. -/
def Stores (variants : Variants) (variant : Identifier) (d : ℕ) : Prop :=
  ∀ (dest : Mir.Var) (s : Lowerer), ∃ code s',
    Emits (setDiscriminant dest (.enum variants) variant) s () code noneNew s' ∧
      ∀ (p : Program) (x : Externs) (l : Locals) (a : ℕ),
        l.regs.operand (.place (lowerVar dest)) = some (.pointer a) →
          ∃ l', Executes p x code l l' ∧ l'.regs = l.regs ∧ l'.mem.bits 1 a = d

theorem bits_writeBits_one (m : Lib.Memory) (a val : ℕ) :
    (m.writeBits 1 a val).bits 1 a = val % 256 := by
  simp [Lib.Memory.bits, Lib.Memory.writeBits, Lib.Memory.write]

theorem stores_index {variants : Variants} {variant : Identifier} {idx : ℕ}
    (h : variants.findIdx? (fun v => v.1 = variant) = some idx) :
    Stores variants variant (idx % 256) := by
  intro dest s
  have hrun : setDiscriminant dest (.enum variants) variant
      = emit (.write (.place (lowerVar dest)) (.value ⟨.u8, idx % 2 ^ 8⟩)) := by
    unfold setDiscriminant
    simp only [h]
    rfl
  rw [hrun]
  refine ⟨_, _, Emits.emit rfl s, fun p x l a ha => ?_⟩
  refine ⟨{ l with mem := l.mem.writeBits 1 a (idx % 2 ^ 8) }, .one ?_, rfl, ?_⟩
  · simp only [Externs.exec, ha]
    rfl
  · rw [bits_writeBits_one]
    omega

/-- Registers in which each variable points to the same place. -/
def pointedAt (a : ℕ) : Locals := ⟨fun _ => some (.pointer a), fun _ => 0, []⟩

def someLowerer : Lowerer :=
  (LowerCtx.mk 0 0 [] [] [] []).lowerer

def noExterns : Externs where
  floatOp _ _ _ _ := 0
  initString _ m _ := m
  eqFn _ _ _ _ := true
  cloneFn _ m _ _ := m
  dropFn _ m _ := m
  callRuntime _ _ m := m
  constantAddress _ := 0
  functionAddress _ := 0

theorem Stores.unique {variants : Variants} {variant : Identifier} {d d' : ℕ}
    (h : Stores variants variant d) (h' : Stores variants variant d') : d = d' := by
  obtain ⟨code, s, hemits, hruns⟩ := h ⟨0, .tmp 0⟩ someLowerer
  obtain ⟨code', s', hemits', hruns'⟩ := h' ⟨0, .tmp 0⟩ someLowerer
  obtain ⟨-, rfl⟩ := Prod.mk.inj (Option.some.inj (hemits.run.symm.trans hemits'.run))
  obtain rfl := List.append_cancel_left (hemits.instructions.symm.trans hemits'.instructions)
  obtain ⟨l, hexec, -, rfl⟩ := hruns [] noExterns (pointedAt 0) 0 rfl
  obtain ⟨l', hexec', -, rfl⟩ := hruns' [] noExterns (pointedAt 0) 0 rfl
  rw [hexec.unique hexec']

/-! ### The readers -/

/-- Where the switch over some of the variants goes for one that is among them. -/
theorem switchTarget_of_find {branches : List (ℕ × LabelRef)} {idx : ℕ} {label : LabelRef}
    (h : (branches.find? fun b => b.1 = idx) = some (idx, label)) (default : LabelRef) :
    switchTarget branches default idx = label := by
  rw [switchTarget, h]
  rfl

theorem find_range_zip {lbls : List LabelRef} {n idx : ℕ} (hidx : idx < n)
    (hlbls : idx < lbls.length) :
    (((List.range n).zip lbls).find? fun b => b.1 = idx) = some (idx, lbls[idx]) := by
  rw [List.find?_eq_some_iff_getElem]
  refine ⟨by simp, idx, by simp [hidx, hlbls], by simp, fun j hj => ?_⟩
  simp only [List.getElem_zip, List.getElem_range, Bool.not_eq_true', decide_eq_false_iff_not]
  omega

/-- The switch of a generated function goes to the block for the number. -/
theorem switchVariants_target {lbls : List LabelRef} {last : LabelRef}
    (hlast : lbls.getLast? = some last) {idx : ℕ} (hidx : idx < lbls.length) :
    switchTarget ((List.range (lbls.length - 1)).zip lbls) last idx = lbls[idx] := by
  by_cases hlt : idx < lbls.length - 1
  · exact switchTarget_of_find (find_range_zip hlt hidx) last
  · have hnone : (((List.range (lbls.length - 1)).zip lbls).find? fun b => b.1 = idx) = none := by
      rw [List.find?_eq_none]
      rintro ⟨i, label⟩ hmem
      have hi := List.mem_range.mp (List.of_mem_zip hmem).1
      simp only [decide_eq_true_eq]
      omega
    rw [switchTarget, hnone]
    have heq : idx = lbls.length - 1 := by omega
    rw [List.getLast?_eq_getElem?, List.getElem?_eq_getElem (by omega)] at hlast
    subst heq
    exact (Option.some.inj hlast).symm

/-- Without a default the last branch is taken for it, so a branch for each number is enough. -/
theorem lowered_target {branches : List (ℕ × LabelRef)} {default : Option LabelRef} {idx : ℕ}
    {label : LabelRef} (h : branchOf branches default idx = some label) {last : ℕ × LabelRef}
    (hlast : branches.getLast? = some last) (hnone : default = none) :
    switchTarget branches.dropLast last.2 idx = label := by
  subst hnone
  unfold branchOf at h
  rw [Option.or_none] at h
  obtain ⟨b, hb, rfl⟩ := Option.map_eq_some_iff.mp h
  have hsplit : branches = branches.dropLast ++ [last] := by
    exact (List.dropLast_append_getLast? last hlast).symm
  rw [hsplit, List.find?_append] at hb
  unfold switchTarget
  rcases Option.or_eq_some_iff.mp hb with hfind | ⟨hfind, hfindLast⟩
  · rw [hfind]
    rfl
  · rw [hfind]
    rw [List.find?_singleton] at hfindLast
    split_ifs at hfindLast with hkey
    rw [← Option.some.inj hfindLast]
    rfl

/-! ### Reading a discriminant -/

theorem wrapInternals_run (n : ℕ) (s : Lowerer) :
    wrapInternals n s = some (List.range' s.labels n, { s with labels := s.labels + n }) := by
  induction n generalizing s with
  | zero => rfl
  | succ n ih =>
    have hrest := ih { s with labels := s.labels + 1 }
    rw [wrapInternals]
    refine Lower.bind_of rfl (Lower.bind_of hrest ?_)
    rw [List.range'_succ, Nat.add_right_comm]
    rfl

/-- A read of the byte that `v` points to, into a register. -/
theorem executes_read {l : Locals} {v : Var} {a : ℕ}
    (h : l.regs.operand (.place v) = some (.pointer a)) (dest : Var) :
    Executes p x [.read dest (.place v) .u8] l (l.set dest ⟨.u8, l.mem.bits 1 a⟩) := by
  apply Executes.one
  simp only [Externs.exec, h]
  rfl

/-- The start of `generate_clone_body_enum`, up to the blocks of the variants. -/
def cloneEntry (returnVar rootVar : Var) (n : ℕ) : Lower (List LabelRef) := do
  let _ ← wrapInternal
  let lbls ← wrapInternals n
  let offsetVar ← offset rootVar 0
  let discriminant ← readTmp offsetVar .u8
  emit (.write (.place returnVar) discriminant)
  switchVariants discriminant lbls
  return lbls

/-- The start of `generate_drop_body_enum`. -/
def dropEntry (rootVar : Var) (n : ℕ) : Lower (List LabelRef) := do
  let _ ← wrapInternal
  let lbls ← wrapInternals n
  let offsetVar ← offset rootVar 0
  let discriminant ← readTmp offsetVar .u8
  switchVariants discriminant lbls
  return lbls

/-- The start of `generate_eq_body_enum`: two blocks, the second of which is for equal
discriminants. -/
def eqEntry (leftBase rightBase : Var) (n : ℕ) : Lower (LabelRef × List LabelRef) := do
  let _ ← wrapInternal
  let matchLbl ← wrapInternal
  let falseLbl ← wrapInternal
  let variantLbls ← wrapInternals n
  let leftDiscriminant ← readTmp leftBase .u8
  let rightDiscriminant ← readTmp rightBase .u8
  let discriminantsEqual ← newTmp .u8
  emit (.intCmp discriminantsEqual .eq leftDiscriminant rightDiscriminant)
  emit (.switch (.place discriminantsEqual) [(1, matchLbl)] falseLbl)
  newBlock matchLbl
  emit (.switch leftDiscriminant ((List.range n).zip variantLbls) falseLbl)
  return (falseLbl, variantLbls)

section
variable (rt : Rt)

theorem generateCloneBodyEnum_eq (returnVar rootVar : Var) (variants : Variants) :
    generateCloneBodyEnum rt returnVar rootVar variants = (do
      let lbls ← cloneEntry returnVar rootVar variants.length
      cloneVariants rt returnVar rootVar lbls variants) := by
  simp [generateCloneBodyEnum, cloneEntry]

theorem generateDropBodyEnum_eq (rootVar : Var) (variants : Variants) :
    generateDropBodyEnum rt rootVar variants = (do
      let lbls ← dropEntry rootVar variants.length
      dropVariants rt rootVar lbls variants) := by
  simp [generateDropBodyEnum, dropEntry]

theorem generateEqBodyEnum_eq (leftBase rightBase : Var) (variants : Variants) :
    generateEqBodyEnum rt leftBase rightBase variants = (do
      let (falseLbl, lbls) ← eqEntry leftBase rightBase variants.length
      eqVariants rt leftBase rightBase falseLbl lbls variants
      returnBool falseLbl false) := by
  simp [generateEqBodyEnum, eqEntry]

end

theorem switchVariants_run {lbls : List LabelRef} (h : lbls ≠ []) (discriminant : Operand)
    (s : Lowerer) :
    ∃ last, lbls.getLast? = some last ∧ switchVariants discriminant lbls s = some ((), { s with
      instructions := s.instructions ++
        [.switch discriminant ((List.range (lbls.length - 1)).zip lbls) last] }) := by
  refine ⟨lbls.getLast h, List.getLast?_eq_some_getLast h, ?_⟩
  unfold switchVariants
  rw [List.getLast?_eq_some_getLast h]
  rfl

/-- The labels of the variants, and code that goes to the one for the number in the byte. -/
def SwitchesOn (entry : Lower (List LabelRef)) (n : ℕ) (read : Locals → ℕ → Prop) (s : Lowerer)
    (idx d : ℕ) : Prop :=
  ∃ lbls code s', entry s = some (lbls, s') ∧ s'.instructions = s.instructions ++ code ∧
    lbls.Nodup ∧ lbls.length = n ∧
    ∀ (p : Program) (x : Externs) (l : Locals) (a : ℕ), read l a → l.mem.bits 1 a = d →
      ∃ label l', lbls[idx]? = some label ∧ JumpsTo p x code l label l'

/-- The labels of `n` variants, after one other label. -/
def variantLabels (s : Lowerer) (n : ℕ) : List LabelRef := List.range' (s.labels + 1) n

/-- The next temporary. -/
def Lowerer.nextTmp (s : Lowerer) : Var := ⟨s.functionScope, .tmp s.tmpIdx⟩

/-- The switch of a generated function on the next temporary. -/
def variantSwitch (s : Lowerer) (n : ℕ) (last : LabelRef) : Instruction :=
  .switch (.place s.nextTmp)
    ((List.range ((variantLabels s n).length - 1)).zip (variantLabels s n)) last

theorem dropEntry_run (rootVar : Var) {n : ℕ} (hn : 0 < n) (s : Lowerer) :
    ∃ last s', (variantLabels s n).getLast? = some last ∧
      dropEntry rootVar n s = some (variantLabels s n, s') ∧
      s'.instructions = s.instructions ++
        ([.read s.nextTmp (.place rootVar) .u8] ++ [variantSwitch s n last]) := by
  have hne : variantLabels s n ≠ [] := by
    rw [← List.length_pos_iff, variantLabels, List.length_range']
    exact hn
  obtain ⟨last, hlast, hswitch⟩ := switchVariants_run hne (.place s.nextTmp)
    { s with
      labels := s.labels + 1 + n, tmpIdx := s.tmpIdx + 1
      vars := s.vars ++ [(s.nextTmp, .val .u8)]
      instructions := s.instructions ++ [.read s.nextTmp (.place rootVar) .u8] }
  refine ⟨last, _, hlast, Lower.bind_of rfl (Lower.bind_of (wrapInternals_run n _)
    (Lower.bind_of rfl (Lower.bind_of rfl (Lower.bind_of hswitch rfl)))), ?_⟩
  exact List.append_assoc _ _ _

theorem cloneEntry_run (returnVar rootVar : Var) {n : ℕ} (hn : 0 < n) (s : Lowerer) :
    ∃ last s', (variantLabels s n).getLast? = some last ∧
      cloneEntry returnVar rootVar n s = some (variantLabels s n, s') ∧
      s'.instructions = s.instructions ++ ([.read s.nextTmp (.place rootVar) .u8] ++
        [.write (.place returnVar) (.place s.nextTmp)] ++ [variantSwitch s n last]) := by
  have hne : variantLabels s n ≠ [] := by
    rw [← List.length_pos_iff, variantLabels, List.length_range']
    exact hn
  obtain ⟨last, hlast, hswitch⟩ := switchVariants_run hne (.place s.nextTmp)
    { s with
      labels := s.labels + 1 + n, tmpIdx := s.tmpIdx + 1
      vars := s.vars ++ [(s.nextTmp, .val .u8)]
      instructions := s.instructions ++ [.read s.nextTmp (.place rootVar) .u8] ++
        [.write (.place returnVar) (.place s.nextTmp)] }
  refine ⟨last, _, hlast, Lower.bind_of rfl (Lower.bind_of (wrapInternals_run n _)
    (Lower.bind_of rfl (Lower.bind_of rfl (Lower.bind_of rfl (Lower.bind_of hswitch rfl))))), ?_⟩
  simp only [List.append_assoc]
  rfl

theorem variantSwitch_target {s : Lowerer} {n idx : ℕ} {last : LabelRef}
    (hlast : (variantLabels s n).getLast? = some last) (hidx : idx < n) :
    switchTarget ((List.range ((variantLabels s n).length - 1)).zip (variantLabels s n)) last idx
      = s.labels + 1 + idx := by
  have hlen : idx < (variantLabels s n).length := by simpa [variantLabels] using hidx
  rw [switchVariants_target hlast hlen]
  simp [variantLabels]

theorem dropEntry_switches (rootVar : Var) {n idx : ℕ} (hidx : idx < n) (s : Lowerer) :
    SwitchesOn (dropEntry rootVar n) n
      (fun l a => l.regs.operand (.place rootVar) = some (.pointer a)) s idx idx := by
  obtain ⟨last, s', hlast, hrun, hcode⟩ := dropEntry_run rootVar (Nat.zero_lt_of_lt hidx) s
  refine ⟨_, _, s', hrun, hcode, List.nodup_range', by simp [variantLabels], ?_⟩
  intro p x l a hroot hd
  refine ⟨s.labels + 1 + idx, _, by simp [variantLabels, hidx], _, _, _, _, _, rfl,
    executes_read hroot s.nextTmp, operand_set_tmp l.regs _ _ _, ?_⟩
  rw [hd]
  exact variantSwitch_target hlast hidx

theorem cloneEntry_switches (returnVar rootVar : Var) {n idx : ℕ} (hidx : idx < n) (s : Lowerer)
    (hret : Old s returnVar) :
    SwitchesOn (cloneEntry returnVar rootVar n) n (fun l a =>
      l.regs.operand (.place rootVar) = some (.pointer a) ∧
        ∃ b, l.regs.operand (.place returnVar) = some (.pointer b)) s idx idx := by
  obtain ⟨last, s', hlast, hrun, hcode⟩ := cloneEntry_run returnVar rootVar
    (Nat.zero_lt_of_lt hidx) s
  refine ⟨_, _, s', hrun, hcode, List.nodup_range', by simp [variantLabels], ?_⟩
  rintro p x l a ⟨hroot, b, hb⟩ hd
  let l₁ := l.set s.nextTmp ⟨.u8, l.mem.bits 1 a⟩
  have hb' : l₁.regs.operand (.place returnVar) = some (.pointer b) :=
    ((RegsKept.set_tmp s l.regs _).operand hret).trans hb
  have htmp : l₁.regs.operand (.place s.nextTmp) = some ⟨.u8, l.mem.bits 1 a⟩ :=
    operand_set_tmp l.regs _ _ _
  have hwrite : Executes p x [.write (.place returnVar) (.place s.nextTmp)] l₁
      { l₁ with mem := l₁.mem.writeBits 1 b (l.mem.bits 1 a) } := by
    apply Executes.one
    simp only [Externs.exec, htmp, hb']
    rfl
  refine ⟨s.labels + 1 + idx, _, by simp [variantLabels, hidx], _, _, _, _, _, rfl,
    (executes_read hroot s.nextTmp).append hwrite, htmp, ?_⟩
  rw [hd]
  exact variantSwitch_target hlast hidx

/-- The function starts with `entry`. -/
def StartsWith {α : Type} (body : Lower Unit) (entry : Lower α) : Prop :=
  ∃ rest : α → Lower Unit, body = entry >>= rest

/-- The same for the two blocks of a comparison, of two values of one variant. -/
def EqSwitchesOn (leftBase rightBase : Var) (n : ℕ) (s : Lowerer) (idx d : ℕ) : Prop :=
  ∃ falseLbl lbls matchLbl entryCode matchCode s',
    eqEntry leftBase rightBase n s = some ((falseLbl, lbls), s') ∧
      s'.blocks = s.blocks ++ [⟨s.label, s.instructions ++ entryCode⟩] ∧
      s'.label = matchLbl ∧ s'.instructions = matchCode ∧
      lbls.Nodup ∧ falseLbl ∉ lbls ∧ lbls.length = n ∧
      ∀ (p : Program) (x : Externs) (l : Locals) (a b : ℕ),
        l.regs.operand (.place leftBase) = some (.pointer a) →
        l.regs.operand (.place rightBase) = some (.pointer b) →
        l.mem.bits 1 a = d → l.mem.bits 1 b = d →
          ∃ label l₁ l₂, lbls[idx]? = some label ∧ JumpsTo p x entryCode l matchLbl l₁ ∧
            JumpsTo p x matchCode l₁ label l₂

theorem operand_set_of_ne (l : Locals) {v w : Var} (h : w ≠ v) (val : IrValue) :
    (l.set v val).regs.operand (.place w) = l.regs.operand (.place w) := by
  have hset : (l.set v val).regs w = l.regs w := Function.update_of_ne h _ _
  simp only [Regs.operand, hset]

theorem eqEntry_switches {leftBase rightBase : Var} {n idx : ℕ} (hidx : idx < n) {s : Lowerer}
    (hright : Old s rightBase) : EqSwitchesOn leftBase rightBase n s idx idx := by
  let t (i : ℕ) : Var := ⟨s.functionScope, .tmp (s.tmpIdx + i)⟩
  let lbls := List.range' (s.labels + 3) n
  let compare : Instruction := .intCmp (t 2) .eq (.place (t 0)) (.place (t 1))
  refine ⟨s.labels + 2, lbls, s.labels + 1, [.read (t 0) (.place leftBase) .u8] ++
      [.read (t 1) (.place rightBase) .u8] ++ [compare] ++
      [.switch (.place (t 2)) [(1, s.labels + 1)] (s.labels + 2)],
    [] ++ [.switch (.place (t 0)) ((List.range n).zip lbls) (s.labels + 2)], _,
    Lower.bind_of rfl (Lower.bind_of rfl (Lower.bind_of rfl
      (Lower.bind_of (wrapInternals_run n _) (Lower.bind_of rfl (Lower.bind_of rfl
        (Lower.bind_of rfl (Lower.bind_of rfl (Lower.bind_of rfl (Lower.bind_of rfl
          (Lower.bind_of rfl rfl)))))))))), ?_, rfl, rfl, List.nodup_range', ?_, by simp [lbls], ?_⟩
  · simp only [List.append_assoc]
    rfl
  · simp only [lbls, List.mem_range'_1]
    omega
  intro p x l a b ha hb hda hdb
  let l₁ := l.set (t 0) ⟨.u8, l.mem.bits 1 a⟩
  let l₂ := l₁.set (t 1) ⟨.u8, l.mem.bits 1 b⟩
  have hb₁ : l₁.regs.operand (.place rightBase) = some (.pointer b) :=
    ((RegsKept.set_tmp s l.regs _).operand hright).trans hb
  have hleft₂ : l₂.regs.operand (.place (t 0)) = some ⟨.u8, idx⟩ := by
    rw [operand_set_of_ne _ (by simp [t]), ← hda]
    exact operand_set_tmp l.regs _ _ _
  have hright₂ : l₂.regs.operand (.place (t 1)) = some ⟨.u8, idx⟩ := by
    rw [← hdb]
    exact operand_set_tmp l₁.regs _ _ _
  let l₃ := l₂.set (t 2) (.bool true)
  have hcompare : Executes p x [compare] l₂ l₃ := by
    have hholds : IntCmp.eq.holds ⟨.u8, idx⟩ ⟨.u8, idx⟩ = true := by simp [IntCmp.holds]
    apply Executes.one
    simp only [compare, Externs.exec, hleft₂, hright₂, Option.bind_eq_bind, Option.bind_some, hholds]
    rfl
  have hleft₃ : l₃.regs.operand (.place (t 0)) = some ⟨.u8, idx⟩ := by
    rw [operand_set_of_ne _ (by simp [t]), hleft₂]
  refine ⟨s.labels + 3 + idx, l₃, l₃, by simp [lbls, hidx], ?_, ?_⟩
  · exact ⟨_, _, _, _, _, rfl, ((executes_read ha (t 0)).append (executes_read hb₁ (t 1))).append
      hcompare, operand_set_tmp l₂.regs _ _ _, rfl⟩
  · refine ⟨_, _, _, _, _, rfl, .nil l₃, hleft₃, ?_⟩
    have hlen : idx < lbls.length := by simpa [lbls] using hidx
    rw [switchTarget_of_find (find_range_zip hidx hlen)]
    simp [lbls]

/-! ### Matches and question marks -/

/-- The code for a switch on the discriminant of a variable goes to the branch for the variant. -/
def SwitchGoes (env : LowerEnv) (branches : List (ℕ × LabelRef)) (default : Option LabelRef)
    (idx d : ℕ) : Prop :=
  ∃ label, branchOf branches default idx = some label ∧
    ∀ (examinee discriminant : Mir.Var) (returnType : Ty) (force : Bool) (s : Lowerer),
      ∃ code s', instructions env returnType force
          (switchCode discriminant examinee branches default) s = some ((), s') ∧
        s'.instructions = s.instructions ++ code ∧
        ∀ (p : Program) (x : Externs) (l : Locals) (a : ℕ),
          l.regs.operand (.place (lowerVar examinee)) = some (.pointer a) →
          l.mem.bits 1 a = d → ∃ l', JumpsTo p x code l label l'

theorem lowerVar_operand (regs : Regs) (v : Mir.Var) (val : IrValue) :
    (regs.set (lowerVar v) val).operand (.place (lowerVar v)) = some val := by
  have hset : regs.set (lowerVar v) val (lowerVar v) = some val := Function.update_self _ _ _
  have hkind : (lowerVar v).kind ≠ .context := by
    unfold lowerVar
    cases v.kind <;> simp
  simp only [Regs.operand, if_neg hkind, hset]

/-- The discriminant is read into a temporary and then assigned. -/
theorem assign_discriminant_run (env : LowerEnv) (discriminant examinee : Mir.Var) (s : Lowerer) :
    ∃ s', assign env (Place.new discriminant .u8) .u8 (.discriminant examinee) s = some ((), s') ∧
      s'.instructions = s.instructions ++ ([.read s.nextTmp (.place (lowerVar examinee)) .u8] ++
        [.assign (lowerVar discriminant) (.place s.nextTmp) .u8]) := by
  have hlower : lowerType env.rt .u8 = some .u8 := lowerType_scalar (p := .int .unsigned .i8) rfl
  have hreference : isReferenceType env.rt .u8 = some false :=
    isReferenceType_scalar (p := .int .unsigned .i8) rfl
  have hlocation : location env.rt (Place.new discriminant .u8) .u8
      = some (some (.var (lowerVar discriminant))) := by
    unfold location
    rw [if_pos (show (Place.new discriminant .u8).projection.isEmpty = true from rfl), hreference]
    rfl
  have hmove : moveVal env.rt (.var (lowerVar discriminant)) (.place s.nextTmp) .u8
      = emit (.assign (lowerVar discriminant) (.place s.nextTmp) .u8) := by
    unfold moveVal
    rw [hlower]
  let dest : Option Location := some (.var (lowerVar discriminant))
  let s₁ : Lowerer :=
    { s with
      tmpIdx := s.tmpIdx + 1, vars := s.vars ++ [(s.nextTmp, .val .u8)]
      instructions := s.instructions ++ [.read s.nextTmp (.place (lowerVar examinee)) .u8] }
  have hplace : unwrap (location env.rt (Place.new discriminant .u8) .u8) s = some (dest, s) := by
    rw [hlocation]
    rfl
  have hread : assignValue env dest .u8 (.discriminant examinee) s
      = some (some (.place s.nextTmp), s₁) := rfl
  refine ⟨_, Lower.bind_of hplace (Lower.bind_of hread (congrFun hmove s₁)), ?_⟩
  exact List.append_assoc _ _ _

theorem switch_run {branches : List (ℕ × LabelRef)} {default : Option LabelRef}
    {idx : ℕ} {label : LabelRef} (h : branchOf branches default idx = some label)
    (examinee : Mir.Var) (s : Lowerer) :
    ∃ branches' default', switchTarget branches' default' idx = label ∧
      switch examinee branches default s = some ((), { s with instructions := s.instructions ++
        [.switch (.place (lowerVar examinee)) branches' default'] }) := by
  cases default with
  | some default =>
    refine ⟨branches, default, ?_, rfl⟩
    unfold branchOf at h
    unfold switchTarget
    cases hfind : (branches.find? fun b => b.1 = idx).map (·.2) with
    | none =>
      rw [hfind] at h
      exact Option.some.inj h
    | some l =>
      rw [hfind] at h
      exact Option.some.inj h
  | none =>
    cases hlast : branches.getLast? with
    | none =>
      rw [List.getLast?_eq_none_iff.mp hlast] at h
      cases h
    | some last =>
      refine ⟨branches.dropLast, last.2, lowered_target h hlast rfl, ?_⟩
      unfold switch
      rw [hlast]
      rfl

theorem switchGoes_of_branch {branches : List (ℕ × LabelRef)} {default : Option LabelRef}
    {idx : ℕ} {label : LabelRef} (h : branchOf branches default idx = some label) (env : LowerEnv) :
    SwitchGoes env branches default idx idx := by
  refine ⟨label, h, fun examinee discriminant returnType force s => ?_⟩
  obtain ⟨s₁, hassign, hcode⟩ := assign_discriminant_run env discriminant examinee s
  obtain ⟨branches', default', htarget, hswitch⟩ := switch_run h discriminant s₁
  let init : List Instruction := [.read s.nextTmp (.place (lowerVar examinee)) .u8] ++
    [.assign (lowerVar discriminant) (.place s.nextTmp) .u8]
  refine ⟨init ++ [.switch (.place (lowerVar discriminant)) branches' default'], _,
    Lower.bind_of hassign (Lower.bind_of hswitch rfl), ?_, ?_⟩
  · rw [← List.append_assoc, ← hcode]
  intro p x l a ha hd
  let l₁ := l.set s.nextTmp ⟨.u8, l.mem.bits 1 a⟩
  have htmp : l₁.regs.operand (.place s.nextTmp) = some ⟨.u8, idx⟩ := by
    rw [← hd]
    exact operand_set_tmp l.regs _ _ _
  have hassigned : Executes p x [.assign (lowerVar discriminant) (.place s.nextTmp) .u8] l₁
      (l₁.set (lowerVar discriminant) ⟨.u8, idx⟩) := by
    apply Executes.one
    simp only [Externs.exec, htmp]
    rfl
  exact ⟨_, _, _, _, _, _, rfl, (executes_read ha s.nextTmp).append hassigned,
    lowerVar_operand l₁.regs discriminant _, htarget⟩

/-! ### Round trips -/

/-- With the stored number `d`, each switch on a value of the enum takes the branch of the
variant `idx`. The generated functions start with such a switch. -/
structure TakesVariant (env : LowerEnv) (variants : Variants) (idx d : ℕ) : Prop where
  arms : ∀ (arms : List MatchArm) (ds : List (Option ℕ)) (cases : List (ℕ × LabelRef))
    (defaultLbl : LabelRef), isExhaustive variants arms = true →
    armDiscriminants variants arms = some ds → CaseLabels ds cases →
      SwitchGoes env cases (defaultBranch ds defaultLbl) idx d
  questionMark : variants.map (·.1) = ["Some", "None"] → ∀ continueLbl returnNone : LabelRef,
    SwitchGoes env [(0, continueLbl)] (some returnNone) idx d
  cloneBody : ∀ scope : ScopeRef, StartsWith
    (generateCloneBodyEnum env.rt ⟨scope, .ret⟩ ⟨scope, .explicit "val"⟩ variants)
    (cloneEntry ⟨scope, .ret⟩ ⟨scope, .explicit "val"⟩ variants.length)
  dropBody : ∀ scope : ScopeRef, StartsWith
    (generateDropBodyEnum env.rt ⟨scope, .explicit "val"⟩ variants)
    (dropEntry ⟨scope, .explicit "val"⟩ variants.length)
  eqBody : ∀ scope : ScopeRef, StartsWith
    (generateEqBodyEnum env.rt ⟨scope, .explicit "left"⟩ ⟨scope, .explicit "right"⟩ variants)
    (eqEntry ⟨scope, .explicit "left"⟩ ⟨scope, .explicit "right"⟩ variants.length)
  clone : ∀ (scope : ScopeRef) (s : Lowerer),
    SwitchesOn (cloneEntry ⟨scope, .ret⟩ ⟨scope, .explicit "val"⟩ variants.length) variants.length
      (fun l a => l.regs.operand (.place ⟨scope, .explicit "val"⟩) = some (.pointer a) ∧
        ∃ b, l.regs.operand (.place ⟨scope, .ret⟩) = some (.pointer b)) s idx d
  drop : ∀ (scope : ScopeRef) (s : Lowerer),
    SwitchesOn (dropEntry ⟨scope, .explicit "val"⟩ variants.length) variants.length
      (fun l a => l.regs.operand (.place ⟨scope, .explicit "val"⟩) = some (.pointer a)) s idx d
  eq : ∀ (scope : ScopeRef) (s : Lowerer),
    EqSwitchesOn ⟨scope, .explicit "left"⟩ ⟨scope, .explicit "right"⟩ variants.length s idx d

theorem branchOf_match {variants : Variants} (hnames : (variants.map (·.1)).Nodup)
    {arms : List MatchArm} (harms : isExhaustive variants arms = true) {ds : List (Option ℕ)}
    (hds : armDiscriminants variants arms = some ds) {cases : List (ℕ × LabelRef)}
    (hcases : CaseLabels ds cases) (defaultLbl : LabelRef) {idx : ℕ} (hidx : idx < variants.length) :
    ∃ label, branchOf cases (defaultBranch ds defaultLbl) idx = some label := by
  unfold branchOf defaultBranch
  by_cases hmem : some idx ∈ ds
  · obtain ⟨b, hb, hkey⟩ := List.mem_map.mp ((hcases.mem idx).mpr hmem)
    have hfind : (cases.find? fun b => b.1 = idx).isSome := by
      rw [List.find?_isSome]
      exact ⟨b, hb, by simpa using hkey⟩
    obtain ⟨b', hb'⟩ := Option.isSome_iff_exists.mp hfind
    rw [hb']
    exact ⟨b'.2, rfl⟩
  · have hdefault : none ∈ ds := by
      rcases exhaustive_covers hnames harms hds with hnone | hall
      · exact hnone
      · exact absurd (hall idx hidx) hmem
    rw [if_pos hdefault]
    cases (cases.find? fun b => b.1 = idx).map (·.2) with
    | none => exact ⟨defaultLbl, rfl⟩
    | some label => exact ⟨label, rfl⟩

theorem takesVariant_self (env : LowerEnv) {variants : Variants}
    (hnames : (variants.map (·.1)).Nodup) {idx : ℕ} (hidx : idx < variants.length) :
    TakesVariant env variants idx idx where
  arms arms ds cases defaultLbl harms hds hcases := by
    obtain ⟨label, hlabel⟩ := branchOf_match hnames harms hds hcases defaultLbl hidx
    exact switchGoes_of_branch hlabel env
  questionMark _ continueLbl returnNone := by
    cases idx with
    | zero => exact @switchGoes_of_branch _ _ _ continueLbl rfl env
    | succ idx => exact @switchGoes_of_branch _ _ _ returnNone rfl env
  cloneBody _ := ⟨_, generateCloneBodyEnum_eq env.rt _ _ variants⟩
  dropBody _ := ⟨_, generateDropBodyEnum_eq env.rt _ variants⟩
  eqBody _ := ⟨_, generateEqBodyEnum_eq env.rt _ _ variants⟩
  clone scope s := cloneEntry_switches _ _ hidx s (old_ret s scope)
  drop scope s := dropEntry_switches _ hidx s
  eq scope s := eqEntry_switches hidx (old_explicit s scope "right")

/-- Constructions and switches agree for each variant, and no two variants are stored alike. -/
def RoundTrips (env : LowerEnv) (variants : Variants) : Prop :=
  (∀ idx, ∀ _ : idx < variants.length, ∃ d,
    Stores variants variants[idx].1 d ∧ TakesVariant env variants idx d) ∧
  ∀ i j d, ∀ _ : i < variants.length, ∀ _ : j < variants.length,
    Stores variants variants[i].1 d → Stores variants variants[j].1 d → i = j

theorem roundTrips_of_le (env : LowerEnv) {variants : Variants}
    (hnames : (variants.map (·.1)).Nodup) (h : variants.length ≤ 256) :
    RoundTrips env variants := by
  have hstores : ∀ idx, ∀ _ : idx < variants.length, Stores variants variants[idx].1 idx := by
    intro idx hidx
    have hstored := stores_index (findIdx_variant hnames hidx)
    rwa [Nat.mod_eq_of_lt (by omega)] at hstored
  constructor
  · exact fun idx hidx => ⟨idx, hstores idx hidx, takesVariant_self env hnames hidx⟩
  · intro i j d hi hj hdi hdj
    exact ((hstores i hi).unique hdi).trans ((hstores j hj).unique hdj).symm

/-- The first variant and the one with the number 256 are stored alike, and a generated drop
takes the first for the other. -/
theorem not_roundTrips_of_lt {env : LowerEnv} {variants : Variants}
    (hnames : (variants.map (·.1)).Nodup) (h : 256 < variants.length) :
    (¬ ∀ idx, ∀ _ : idx < variants.length, ∃ d,
      Stores variants variants[idx].1 d ∧ TakesVariant env variants idx d) ∧
    ¬ ∀ i j d, ∀ _ : i < variants.length, ∀ _ : j < variants.length,
      Stores variants variants[i].1 d → Stores variants variants[j].1 d → i = j := by
  have hzero : 0 < variants.length := by omega
  have hstores : Stores variants variants[256].1 0 := stores_index (findIdx_variant hnames h)
  constructor
  · intro hall
    obtain ⟨d, hd, htakes⟩ := hall 256 h
    obtain rfl := hd.unique hstores
    obtain ⟨lbls, code, s', hrun, hcode, hnodup, -, hjumps⟩ := htakes.drop 0 someLowerer
    obtain ⟨lbls', code', s'', hrun', hcode', -, -, hjumps'⟩ :=
      dropEntry_switches ⟨0, .explicit "val"⟩ hzero someLowerer
    obtain ⟨rfl, rfl⟩ := Prod.mk.inj (Option.some.inj (hrun.symm.trans hrun'))
    obtain rfl := List.append_cancel_left (hcode.symm.trans hcode')
    obtain ⟨label, l, hlabel, hjump⟩ := hjumps [] noExterns (pointedAt 0) 0 rfl rfl
    obtain ⟨label', l', hlabel', hjump'⟩ := hjumps' [] noExterns (pointedAt 0) 0 rfl rfl
    rw [hjump.unique hjump', ← hlabel'] at hlabel
    have hlt : 256 < lbls.length := by
      by_contra hge
      rw [List.getElem?_eq_none (by omega), hlabel'] at hlabel
      cases hlabel
    have hsame := (List.getElem?_inj hlt hnodup).mp hlabel
    omega
  · intro hdistinct
    have hfirst : Stores variants variants[0].1 0 := stores_index (findIdx_variant hnames hzero)
    have heq := hdistinct 0 256 0 hzero h hfirst hstores
    omega

/-- Discriminants round-trip for the enums with at most as many variants as a byte has values. -/
theorem discriminants_round_trip (env : LowerEnv) {variants : Variants}
    (hnames : (variants.map (·.1)).Nodup) : RoundTrips env variants ↔ variants.length ≤ 256 := by
  constructor
  · intro h
    by_contra hlt
    exact (not_roundTrips_of_lt hnames (by omega)).1 h.1
  · exact roundTrips_of_le env hnames

def pointerEnv : LowerEnv where
  rt := pointerRt
  fullName name := name.ident
  dynVals _ := []
  addrBytes _ := []
  f32Bits bits := bits

theorem discriminants_round_trip_option :
    RoundTrips pointerEnv [("Some", [.u8]), ("None", [])] ↔ 2 ≤ 256 :=
  discriminants_round_trip pointerEnv (by decide)

/-- An enum of variants without fields, whose names are all different. -/
def plainVariants (n : ℕ) : Variants :=
  (List.range n).map fun i => (String.ofList (List.replicate i 'V'), [])

theorem plainVariants_nodup (n : ℕ) : ((plainVariants n).map (·.1)).Nodup := by
  unfold plainVariants
  rw [List.map_map]
  refine List.nodup_range.map ?_
  intro i j h
  have hlists : List.replicate i 'V' = List.replicate j 'V' := by
    simpa using congrArg String.toList h
  simpa using congrArg List.length hlists

/-- 257 variants. -/
theorem discriminants_collide :
    ¬ ∀ (env : LowerEnv) (variants : Variants), (variants.map (·.1)).Nodup →
      RoundTrips env variants := by
  intro h
  have hlength : (plainVariants 257).length = 257 := by simp [plainVariants]
  have hround := h pointerEnv (plainVariants 257) (plainVariants_nodup 257)
  exact (not_roundTrips_of_lt (plainVariants_nodup 257) (by omega)).1 hround.1

end Roto.Lir
