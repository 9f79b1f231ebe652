import RotoCompiler.Mir.ControlFlow

/-!
# The control flow of lowered matches

The cases of a match lead to chains of guards, and those to the arms. A chain in which every
arm has a guard has no end.
-/

namespace Roto.Mir
open LaidCode
open Ast (Pattern MatchArm Expr)

namespace Lowering

variable {α β : Type} {env : LowerEnv} {alive : Prop} {M R : Set ℕ} {t t' : Bool}

/-! ### Cases, guards and arms -/

section Matches

theorem allocates_caseLabels (lblPrefix : LabelRef) (ds : List ℕ) :
    Lays.Allocates laid (fun cases => cases.map (·.2)) (caseLabels lblPrefix ds) := by
  induction ds with
  | nil => exact Lays.Allocates.nil rfl
  | cons d ds ih => exact Lays.Allocates.cons (allocates_wrap _ _) ih fun _ _ => rfl

theorem caseLabels_fst {lblPrefix : LabelRef} {ds : List ℕ} {s s' : Lowering}
    {cases : List (ℕ × LabelRef)} (h : caseLabels lblPrefix ds s = some (cases, s')) :
    cases.map (·.1) = ds := by
  induction ds generalizing s s' cases with
  | nil =>
    rw [← (Prod.mk.inj (Option.some.inj h)).1]
    rfl
  | cons d ds ih =>
    obtain ⟨l, s₁, -, h⟩ := Lays.bind_some h
    obtain ⟨rest, s₂, h₂, h⟩ := Lays.bind_some h
    rw [← (Prod.mk.inj (Option.some.inj h)).1, List.map_cons, ih h₂]

theorem allocates_armBranches (lblPrefix : LabelRef) (idx : ℕ) (ds : List (Option ℕ))
    (arms : List Arm) :
    Lays.Allocates laid (fun branches => branches.map Branch.label)
      (armBranches lblPrefix idx ds arms) := by
  induction ds generalizing idx arms with
  | nil => exact Lays.Allocates.nil rfl
  | cons d ds ih =>
    cases arms with
    | nil => exact Lays.Allocates.nil rfl
    | cons arm arms =>
      exact Lays.Allocates.cons (allocates_wrap _ _) (ih (idx + 1) arms) fun _ _ => rfl

/-- What a branch is made of. -/
theorem armBranches_eq {lblPrefix : LabelRef} {idx : ℕ} {ds : List (Option ℕ)} {arms : List Arm}
    {s s' : Lowering} {branches : List Branch} (hlength : ds.length = arms.length)
    (h : armBranches lblPrefix idx ds arms s = some (branches, s')) :
    branches.map (fun b => (b.discriminant, b.pattern, b.guard, b.body)) =
      (ds.zip arms).map fun a => (a.1, a.2.1, a.2.2.1, a.2.2.2.2) := by
  induction ds generalizing idx arms s s' branches with
  | nil =>
    rw [← (Prod.mk.inj (Option.some.inj h)).1]
    rfl
  | cons d ds ih =>
    cases arms with
    | nil => cases hlength
    | cons arm arms =>
      obtain ⟨l, s₁, -, h⟩ := Lays.bind_some h
      obtain ⟨rest, s₂, h₂, h⟩ := Lays.bind_some h
      rw [← (Prod.mk.inj (Option.some.inj h)).1, List.map_cons, ih (Nat.succ.inj hlength) h₂]
      rfl

/-- The part of `guardChain` after the label of a branch. -/
def guardTail (env : LowerEnv) (examinee : Var) (examineeTy : Ty)
    (variant : Option (Identifier × List Ty)) (lbl : LabelRef) (i : ℕ) (branch : Branch)
    (branches : List Branch) : Lower Unit := do
  pushSlot
  bindFields env examinee examineeTy variant branch.pattern
  let nextLbl ← wrapInternal lbl s!"guard_{i + 1}"
  let toDrop ← popSlot
  guardBranch lbl nextLbl i branch toDrop
  guardChain env examinee examineeTy variant lbl (i + 1) nextLbl branches

theorem flows_guardBranch {lbl nextLbl : LabelRef} {i : ℕ} {branch : Branch}
    {toDrop : List (Var × Ty)} (hlabel : alive → branch.label ∈ M)
    (hnext : alive → branch.guard ≠ none → nextLbl ∈ M)
    (hguard : ∀ g ∈ branch.guard, Straight alive g.2) :
    Flows alive M ∅ false true (guardBranch lbl nextLbl i branch toDrop) := by
  unfold guardBranch
  cases hg : branch.guard with
  | none => exact flows_jump hlabel
  | some g =>
    refine Lays.andThen (hguard g hg _) fun op => ?_
    refine Lays.andThen (flows_plain (Plain.assignToVar _ _)) fun op => ?_
    refine Lays.reserve (allocates_wrap _ _) fun intermediate _ _ => ?_
    refine Lays.andThen (flows_switch fun ha x hx => ?_) fun _ => ?_
    · simp at hx
      rcases hx with hx | hx
      · rw [hx]
        exact Or.inr (hlabel ha)
      · rw [hx]
        exact Or.inl rfl
    refine flows_startBlock ∅ (by intro x; simp) (by simp) ?_
    refine Lays.andThen (flows_plain (Plain.emitAll Plain.dropsOf)) fun _ => ?_
    exact flows_jump fun ha => Or.inr (hnext ha (by simp [hg]))

/-- Up to the first branch without a guard the chain is live, what stands behind it is not. -/
theorem flows_guardTail {examinee : Var} {examineeTy : Ty}
    {variant : Option (Identifier × List Ty)} {lbl : LabelRef} {i : ℕ} {branch : Branch}
    {branches : List Branch} (hlabels : alive → ∀ b ∈ branch :: branches, b.label ∈ M)
    (hends : alive → ∃ b ∈ branch :: branches, b.guard = none)
    (hguards : ∀ b ∈ branch :: branches, ∀ g ∈ b.guard, Straight alive g.2) :
    Flows alive M ∅ false true
      (guardTail env examinee examineeTy variant lbl i branch branches) := by
  induction branches generalizing alive M branch i with
  | nil =>
    have hunguarded : alive → branch.guard = none := by
      intro ha
      obtain ⟨b, hb, hnone⟩ := hends ha
      rwa [List.mem_singleton.mp hb] at hnone
    refine Lays.andThen (flows_quiet Quiet.pushSlot) fun _ => ?_
    refine Lays.andThen (flows_plain (Plain.bindFields _ _ _ _ _)) fun _ => ?_
    refine Lays.skip (allocates_wrap _ _) fun nextLbl _ _ => ?_
    refine Lays.andThen (flows_quiet Quiet.popSlot) fun toDrop => ?_
    refine Lays.andThen (flows_guardBranch (fun ha => hlabels ha _ List.mem_cons_self)
      (fun ha hne => absurd (hunguarded ha) hne) (hguards _ List.mem_cons_self)) fun _ => ?_
    exact Lays.pure ()
  | cons next rest ih =>
    have hlabel : alive → branch.label ∈ M := fun ha => hlabels ha _ List.mem_cons_self
    have hrest : alive → ∀ b ∈ next :: rest, b.label ∈ M := fun ha =>
      (List.forall_mem_cons.mp (hlabels ha)).2
    have hguard := List.forall_mem_cons.mp hguards
    refine Lays.andThen (flows_quiet Quiet.pushSlot) fun _ => ?_
    refine Lays.andThen (flows_plain (Plain.bindFields _ _ _ _ _)) fun _ => ?_
    cases hg : branch.guard with
    | none =>
      refine Lays.reserveDead (allocates_wrap _ _) fun nextLbl hM _ => ?_
      refine Lays.andThen (flows_quiet Quiet.popSlot) fun toDrop => ?_
      refine Lays.andThen (flows_guardBranch hlabel (fun _ hne => absurd hg hne) hguard.1)
        fun _ => ?_
      refine Lays.dead (newBlock_events nextLbl) (fun _ => ?_) (Set.notMem_empty _) hM
        fun x hx => (Set.notMem_empty x hx).elim
      exact ih (fun h => h.elim) (fun h => h.elim)
        fun b hb g hgb M => Lays.kill (hguard.2 b hb g hgb M)
    | some g =>
      refine Lays.reserve (allocates_wrap _ _) fun nextLbl _ _ => ?_
      refine Lays.andThen (flows_quiet Quiet.popSlot) fun toDrop => ?_
      refine Lays.andThen (flows_guardBranch (fun ha => Or.inr (hlabel ha))
        (fun _ _ => Or.inl rfl) hguard.1) fun _ => ?_
      refine flows_startBlock ∅ (by intro x; simp) (by simp) ?_
      refine ih (fun ha b hb => Or.inr (hrest ha b hb)) (fun ha => ?_) hguard.2
      obtain ⟨b, hb, hnone⟩ := hends ha
      rcases List.mem_cons.mp hb with rfl | hb
      · rw [hg] at hnone
        cases hnone
      · exact ⟨b, hb, hnone⟩

theorem flows_matchCase {examinee : Var} {examineeTy : Ty}
    {variant : Option (Identifier × List Ty)} {lbl : LabelRef} {branches : List Branch}
    (hlabels : alive → ∀ b ∈ branches, b.label ∈ M)
    (hends : alive → ∃ b ∈ branches, b.guard = none)
    (hguards : ∀ b ∈ branches, ∀ g ∈ b.guard, Straight alive g.2) :
    Flows alive M {lbl} true true (matchCase env examinee examineeTy variant lbl branches) := by
  refine flows_startBlock ∅ (by intro x; simp) (by simp) ?_
  cases branches with
  | nil =>
    have hdead : ¬ alive := by
      intro ha
      obtain ⟨b, hb, -⟩ := hends ha
      cases hb
    refine Lays.skip (allocates_wrap _ _) fun guardLbl _ _ => ?_
    refine Lays.andThen (flows_jump fun ha => absurd ha hdead) fun _ => ?_
    exact Lays.pure ()
  | cons branch branches =>
    refine Lays.reserve (allocates_wrap _ _) fun guardLbl _ _ => ?_
    refine Lays.andThen (flows_jump fun _ => Or.inl rfl) fun _ => ?_
    refine flows_startBlock ∅ (by intro x; simp) (by simp) ?_
    exact flows_guardTail (fun ha b hb => Or.inr (hlabels ha b hb)) hends hguards

theorem flows_matchCases {examinee : Var} {examineeTy : Ty} {variants : Variants}
    {branches : List Branch} {cases : List (ℕ × LabelRef)}
    (hnodup : (cases.map (·.2)).Nodup) (hlabels : alive → ∀ b ∈ branches, b.label ∈ M)
    (hends : alive → ∀ c ∈ cases, ∃ b ∈ branchesFor c.1 branches, b.guard = none)
    (hguards : ∀ b ∈ branches, ∀ g ∈ b.guard, Straight alive g.2) :
    Flows alive M {l | l ∈ cases.map (·.2)} true true
      (matchCases env examinee examineeTy variants branches cases) := by
  induction cases with
  | nil =>
    have hset : {l | l ∈ ([] : List (ℕ × LabelRef)).map (·.2)} = (∅ : Set ℕ) := by simp
    rw [hset]
    exact Lays.pure ()
  | cons c cases ih =>
    have hnodup' := List.nodup_cons.mp hnodup
    have hset : {l | l ∈ (c :: cases).map (·.2)} =
        ({c.2} : Set ℕ) ∪ {l | l ∈ cases.map (·.2)} := by
      ext x
      simp
    rw [hset]
    refine Lays.andThen (flows_quiet (Quiet.unwrap _)) fun variant => ?_
    refine Lays.bind (flows_matchCase ?_ ?_ ?_) (fun _ => ?_) ?_
    · exact fun ha b hb => hlabels ha b (List.mem_of_mem_filter hb)
    · exact fun ha => hends ha c List.mem_cons_self
    · exact fun b hb => hguards b (List.mem_of_mem_filter hb)
    · exact ih hnodup'.2 fun ha c' hc' => hends ha c' (List.mem_cons_of_mem c hc')
    · intro l hl
      rw [Set.mem_singleton_iff.mp hl]
      exact hnodup'.1

theorem flows_defaultCase {examinee : Var} {examineeTy : Ty} {defaultLbl : LabelRef}
    {branches : List Branch} (hlabels : alive → ∀ b ∈ branches, b.label ∈ M)
    (hends : alive → branches ≠ [] → ∃ b ∈ branches, b.guard = none)
    (hguards : ∀ b ∈ branches, ∀ g ∈ b.guard, Straight alive g.2) :
    Flows alive M {l | l = defaultLbl ∧ branches ≠ []} true true
      (defaultCase env examinee examineeTy defaultLbl branches) := by
  cases branches with
  | nil =>
    have hset : {l | l = defaultLbl ∧ ([] : List Branch) ≠ []} = (∅ : Set ℕ) := by simp
    rw [hset]
    exact Lays.pure ()
  | cons branch branches =>
    have hset : {l | l = defaultLbl ∧ branch :: branches ≠ []} = ({defaultLbl} : Set ℕ) := by
      simp
    rw [hset]
    exact flows_matchCase hlabels (fun ha => hends ha (by simp)) hguards

theorem flows_armBlocks {variants : Variants} {out : Var} {ty : Ty} {continueLbl : LabelRef}
    {branches : List Branch} (hnodup : (branches.map Branch.label).Nodup)
    (hcontinue : alive → continueLbl ∈ M) (hbodies : ∀ b ∈ branches, Straight alive b.body) :
    Flows alive M {l | l ∈ branches.map Branch.label} true true
      (armBlocks env variants out ty continueLbl branches) := by
  induction branches with
  | nil =>
    have hset : {l | l ∈ ([] : List Branch).map Branch.label} = (∅ : Set ℕ) := by simp
    rw [hset]
    exact Lays.pure ()
  | cons branch branches ih =>
    have hnodup' := List.nodup_cons.mp hnodup
    have hbodies' := List.forall_mem_cons.mp hbodies
    refine Lays.andThen (flows_quiet Quiet.pushSlot) fun _ => ?_
    refine Lays.andThen (flows_quiet (Quiet.armSlot _ _ _)) fun slot => ?_
    refine Lays.andThen (flows_quiet (Quiet.pushAll _)) fun _ => ?_
    refine flows_startBlock {l | l ∈ branches.map Branch.label} (by intro x; simp) hnodup'.1 ?_
    refine Lays.andThen (straight_branchInto _ _ hbodies'.1 _) fun _ => ?_
    refine Lays.andThen (flows_plain Plain.dropSlot) fun _ => ?_
    refine Lays.andThen (flows_jump hcontinue) fun _ => ?_
    exact ih hnodup'.2 hbodies'.2

end Matches

/-! ### Chains with an end -/

/-- Every arm has an arm without a guard that takes what it takes. -/
def chainsEnd (arms : List (Option ℕ × Bool)) : Bool :=
  arms.all fun a => arms.any fun b => b.2 && (b.1 == a.1 || b.1.isNone)

def HasArm (arms : List MatchArm) (name : Identifier) : Prop :=
  ∃ arm ∈ arms, arm.guard = none ∧
    ∃ variant fields, arm.pattern = .enumVariant variant fields ∧ variant.node = name

/-- What the check learns: a variant counts as used when it has an arm without a guard. -/
structure Unguarded (variants : Variants) (arms : List MatchArm) (before after : List Identifier)
    (default' : Bool) : Prop where
  used : ∀ name ∈ after, name ∈ before ∨ HasArm arms name
  default : default' = true → ∃ arm ∈ arms, arm.pattern = .underscore ∧ arm.guard = none
  names : ∀ arm ∈ arms, ∀ variant fields, arm.pattern = .enumVariant variant fields →
    variant.node ∈ variants.map (·.1)

theorem Unguarded.cons {variants : Variants} {arms : List MatchArm}
    {before before' after : List Identifier} {default' : Bool}
    (h : Unguarded variants arms before' after default') (arm : MatchArm)
    (hbefore : ∀ name ∈ before', name ∈ before ∨ HasArm (arm :: arms) name)
    (hnames : ∀ variant fields, arm.pattern = .enumVariant variant fields →
      variant.node ∈ variants.map (·.1)) :
    Unguarded variants (arm :: arms) before after default' where
  used name hname := by
    rcases h.used name hname with hmem | ⟨a, ha, harm⟩
    · exact hbefore name hmem
    · exact Or.inr ⟨a, List.mem_cons_of_mem arm ha, harm⟩
  default hd := by
    obtain ⟨a, ha, harm⟩ := h.default hd
    exact ⟨a, List.mem_cons_of_mem arm ha, harm⟩
  names := List.forall_mem_cons.mpr ⟨hnames, h.names⟩

theorem checkArms_unguarded {variants : Variants} (arms : List MatchArm)
    {used used' : List Identifier} {default' : Bool}
    (h : checkArms variants arms used false = some (used', default')) :
    Unguarded variants arms used used' default' := by
  induction arms generalizing used with
  | nil =>
    obtain ⟨rfl, rfl⟩ := Prod.mk.inj (Option.some.inj h)
    constructor
    · exact fun name hname => Or.inl hname
    · intro hd
      cases hd
    · intro arm harm
      cases harm
  | cons arm arms ih =>
    rw [checkArms, if_neg (by simp)] at h
    cases hpattern : arm.pattern with
    | underscore =>
      simp only [hpattern] at h
      have hnames : ∀ variant fields, arm.pattern = .enumVariant variant fields →
          variant.node ∈ variants.map (·.1) := by
        intro variant fields heq
        rw [hpattern] at heq
        cases heq
      cases hguard : arm.guard.isNone with
      | false =>
        rw [hguard] at h
        exact (ih h).cons arm (fun name hname => Or.inl hname) hnames
      | true =>
        rw [hguard] at h
        cases arms with
        | nil =>
          obtain ⟨rfl, rfl⟩ := Prod.mk.inj (Option.some.inj h)
          constructor
          · exact fun name hname => Or.inl hname
          · exact fun _ => ⟨arm, List.mem_cons_self, hpattern, Option.isNone_iff_eq_none.mp hguard⟩
          · refine List.forall_mem_cons.mpr ⟨hnames, fun a ha => ?_⟩
            cases ha
        | cons next rest =>
          rw [checkArms, if_pos rfl] at h
          cases h
    | enumVariant variant fields =>
      simp only [hpattern] at h
      obtain ⟨v, hfind, h⟩ := Option.bind_eq_some_iff.mp h
      have hname : v.1 = variant.node := by simpa using List.find?_some hfind
      have hnames : ∀ variant fields, arm.pattern = .enumVariant variant fields →
          variant.node ∈ variants.map (·.1) := by
        intro variant' fields' heq
        rw [hpattern] at heq
        rw [← (Pattern.enumVariant.inj heq).1, ← hname]
        exact List.mem_map_of_mem (List.mem_of_find?_eq_some hfind)
      split_ifs at h with hfields hskip
      · exact (ih h).cons arm (fun name hname => Or.inl hname) hnames
      · refine (ih h).cons arm (fun name hname => ?_) hnames
        rcases List.mem_append.mp hname with hmem | hmem
        · exact Or.inl hmem
        · have hguard : arm.guard = none := by
            cases hg : arm.guard with
            | none => rfl
            | some g => exact absurd (by simp [hg]) hskip
          rw [List.mem_singleton.mp hmem]
          exact Or.inr ⟨arm, List.mem_cons_self, hguard, variant, fields, hpattern, rfl⟩

theorem mem_armDiscriminants_zip {variants : Variants} {arms : List MatchArm}
    {ds : List (Option ℕ)} (h : armDiscriminants variants arms = some ds) (a : Option ℕ × Bool) :
    a ∈ ds.zip (arms.map fun arm => arm.guard.isNone) ↔ ∃ arm ∈ arms,
      patternDiscriminant variants arm.pattern = some a.1 ∧ a.2 = arm.guard.isNone := by
  induction arms generalizing ds with
  | nil =>
    obtain rfl := Option.some.inj h
    simp
  | cons arm arms ih =>
    rw [armDiscriminants, List.mapM_cons] at h
    obtain ⟨d, hd, h⟩ := Option.bind_eq_some_iff.mp h
    obtain ⟨ds', hds', h⟩ := Option.bind_eq_some_iff.mp h
    obtain rfl := Option.some.inj h
    rw [List.map_cons, List.zip_cons_cons, List.mem_cons, ih hds', List.exists_mem_cons_iff]
    refine or_congr_left ?_
    rw [hd, Prod.ext_iff]
    simp [eq_comm]

/-- In an exhaustive match only the arms for `_` can be without an end. -/
theorem chainsEnd_iff {variants : Variants} {arms : List MatchArm}
    (h : isExhaustive variants arms = true) {ds : List (Option ℕ)}
    (hds : armDiscriminants variants arms = some ds) :
    chainsEnd (ds.zip (arms.map fun arm => arm.guard.isNone)) = true ↔
      ((∃ arm ∈ arms, arm.pattern = .underscore) →
        ∃ arm ∈ arms, arm.pattern = .underscore ∧ arm.guard = none) := by
  have hmem := mem_armDiscriminants_zip hds
  unfold chainsEnd
  rw [List.all_eq_true]
  constructor
  · intro hends hunder
    obtain ⟨arm, harm, hpattern⟩ := hunder
    have ha := hends (none, arm.guard.isNone) ((hmem _).mpr ⟨arm, harm, by rw [hpattern]; rfl, rfl⟩)
    obtain ⟨b, hb, hguard⟩ := List.any_eq_true.mp ha
    obtain ⟨arm', harm', hd, hb₂⟩ := (hmem b).mp hb
    simp only [Bool.and_eq_true, Bool.or_eq_true, beq_iff_eq, Option.isNone_iff_eq_none,
      or_self] at hguard
    rw [hb₂, Option.isNone_iff_eq_none] at hguard
    refine ⟨arm', harm', ?_, hguard.1⟩
    cases hpattern' : arm'.pattern with
    | underscore => rfl
    | enumVariant variant fields =>
      rw [hpattern', hguard.2] at hd
      obtain ⟨k, -, hk⟩ := Option.map_eq_some_iff.mp hd
      cases hk
  · intro hunder a ha
    obtain ⟨arm, harm, hd, -⟩ := (hmem a).mp ha
    unfold isExhaustive at h
    cases hcheck : checkArms variants arms [] false with
    | none =>
      rw [hcheck] at h
      cases h
    | some r =>
      have hunguarded := checkArms_unguarded arms hcheck
      have hends : ∀ arm' ∈ arms, arm'.guard = none →
          patternDiscriminant variants arm'.pattern = some a.1 ∨ arm'.pattern = .underscore →
          ((ds.zip (arms.map fun arm => arm.guard.isNone)).any fun b =>
            b.2 && (b.1 == a.1 || b.1.isNone)) = true := by
        intro arm' harm' hguard hpattern
        rcases hpattern with hpattern | hpattern
        · refine List.any_eq_true.mpr ⟨(a.1, true), (hmem _).mpr ⟨arm', harm', hpattern, ?_⟩, by simp⟩
          rw [hguard]
          rfl
        · refine List.any_eq_true.mpr ⟨(none, true), (hmem _).mpr ⟨arm', harm', ?_, ?_⟩, by simp⟩
          · rw [hpattern]
            rfl
          · rw [hguard]
            rfl
      cases hpattern : arm.pattern with
      | underscore =>
        obtain ⟨arm', harm', hpattern', hguard'⟩ := hunder ⟨arm, harm, hpattern⟩
        exact hends arm' harm' hguard' (Or.inr hpattern')
      | enumVariant variant fields =>
        rw [hcheck] at h
        simp only [Bool.or_eq_true, decide_eq_true_eq] at h
        rcases h with hd' | hlength
        · obtain ⟨arm', harm', hpattern', hguard'⟩ := hunguarded.default hd'
          exact hends arm' harm' hguard' (Or.inr hpattern')
        · have hcounts := (checkArms_used arms hcheck List.nodup_nil (List.nil_subset _)).1
          have hperm : r.1.Perm (variants.map (·.1)) :=
            (hcounts.nodup.subperm hcounts.names).perm_of_length_le (by simpa using hlength)
          have hin := hperm.mem_iff.mpr (hunguarded.names arm harm variant fields hpattern)
          rcases hunguarded.used _ hin with hnil | harm'
          · cases hnil
          · obtain ⟨arm', harm', hguard', variant', fields', hpattern', hname⟩ := harm'
            refine hends arm' harm' hguard' (Or.inl ?_)
            rw [hpattern] at hd
            rw [hpattern', ← hd]
            simp only [patternDiscriminant, hname]

def takesAll : Pattern → Bool
  | .underscore => true
  | .enumVariant _ _ => false

/-- An accepted match that has an arm for `_` without a guard, if it has one for `_` at all. -/
def matchCovered (env : LowerEnv) : Expr → Bool
  | .match _ e arms =>
    match env.ty e.id with
    | .enum variants => isExhaustive variants arms &&
        (arms.all (fun arm => !takesAll arm.pattern) ||
          arms.any fun arm => takesAll arm.pattern && arm.guard.isNone)
    | _ => true
  | _ => true

theorem takesAll_iff {pattern : Pattern} : takesAll pattern = true ↔ pattern = .underscore := by
  cases pattern <;> simp [takesAll]

theorem matchCovered_ends {id : MetaId} {e : Expr} {arms : List MatchArm} {variants : Variants}
    (h : matchCovered env (.match id e arms) = true) (hty : env.ty e.id = .enum variants)
    {ds : List (Option ℕ)} (hds : armDiscriminants variants arms = some ds) :
    chainsEnd (ds.zip (arms.map fun arm => arm.guard.isNone)) = true := by
  simp only [matchCovered, hty, Bool.and_eq_true, Bool.or_eq_true] at h
  rw [chainsEnd_iff h.1 hds]
  intro hunder
  obtain ⟨arm, harm, hpattern⟩ := hunder
  rcases h.2 with hnone | hsome
  · have hnot := List.all_eq_true.mp hnone arm harm
    rw [takesAll_iff.mpr hpattern] at hnot
    cases hnot
  · obtain ⟨arm', harm', hguard⟩ := List.any_eq_true.mp hsome
    rw [Bool.and_eq_true, takesAll_iff, Option.isNone_iff_eq_none] at hguard
    exact ⟨arm', harm', hguard⟩

theorem flows_unwrap {x : Option α} {k : α → Lower β}
    (h : ∀ a, x = some a → Flows alive M R t t' (k a)) :
    Flows alive M R t t' (unwrap x >>= k) := by
  cases hx : x with
  | none =>
    intro s b s' _ hm
    obtain ⟨a, s₁, h₁, -⟩ := Lays.bind_some hm
    cases h₁
  | some a => exact h a hx

theorem mapM_length {γ δ : Type} {f : γ → Option δ} {xs : List γ} {ys : List δ}
    (h : xs.mapM f = some ys) : ys.length = xs.length := by
  induction xs generalizing ys with
  | nil =>
    obtain rfl := Option.some.inj h
    rfl
  | cons x xs ih =>
    rw [List.mapM_cons] at h
    obtain ⟨y, -, h⟩ := Option.bind_eq_some_iff.mp h
    obtain ⟨ys', hys', h⟩ := Option.bind_eq_some_iff.mp h
    rw [← Option.some.inj h, List.length_cons, List.length_cons, ih hys']

/-- The branches of a match in which every arm has an end. -/
theorem branches_end {ds : List (Option ℕ)} {arms : List Arm} {branches : List Branch}
    (hbranches : branches.map (fun b => (b.discriminant, b.pattern, b.guard, b.body)) =
      (ds.zip arms).map fun a => (a.1, a.2.1, a.2.2.1, a.2.2.2.2))
    (hends : chainsEnd (ds.zip (arms.map fun arm => arm.2.1.isNone)) = true) {d : Option ℕ}
    (hd : d ∈ branches.map Branch.discriminant) :
    ∃ b ∈ branches, b.guard = none ∧ (b.discriminant = d ∨ b.discriminant = none) := by
  have hchain : (branches.map fun b => (b.discriminant, b.guard.isNone)) =
      ds.zip (arms.map fun arm => arm.2.1.isNone) := by
    have hmap := congrArg (List.map fun x => (x.1, x.2.2.1.isNone)) hbranches
    simp only [List.map_map] at hmap
    rw [List.zip_map_right]
    exact hmap
  rw [← hchain] at hends
  obtain ⟨b, hb, rfl⟩ := List.mem_map.mp hd
  have hb' := List.all_eq_true.mp hends _ (List.mem_map_of_mem hb)
  obtain ⟨c, hc, hguard⟩ := List.any_eq_true.mp hb'
  obtain ⟨b', hb', rfl⟩ := List.mem_map.mp hc
  simp only [Bool.and_eq_true, Bool.or_eq_true, beq_iff_eq, Option.isNone_iff_eq_none] at hguard
  exact ⟨b', hb', hguard.1, hguard.2⟩

/-- The cases, the default case and the arms, each under their labels. -/
theorem flows_matchBlocks {examinee : Var} {examineeTy ty : Ty} {variants : Variants}
    {branches : List Branch} {cases : List (ℕ × LabelRef)} {defaultLbl continueLbl : LabelRef}
    (hcases : (cases.map (·.2)).Nodup) (harms : (branches.map Branch.label).Nodup)
    (hlabels : ∀ b ∈ branches, b.label ∈ M) (hcontinue : continueLbl ∈ M)
    (hends : alive → ∀ d, d ∈ cases.map (fun c => some c.1) ∨ d = none →
      d ∈ branches.map Branch.discriminant →
      ∃ b ∈ branches, b.guard = none ∧ (b.discriminant = d ∨ b.discriminant = none))
    (hfound : ∀ c ∈ cases, some c.1 ∈ branches.map Branch.discriminant)
    (hguards : ∀ b ∈ branches, ∀ g ∈ b.guard, Straight alive g.2)
    (hbodies : ∀ b ∈ branches, Straight alive b.body)
    (hcasesApart : ∀ l ∈ cases.map (·.2), (l = defaultLbl → defaultBranches branches = []) ∧
      l ∉ branches.map Branch.label ∧ l ≠ continueLbl)
    (hdefaultApart : defaultBranches branches ≠ [] →
      defaultLbl ∉ branches.map Branch.label ∧ defaultLbl ≠ continueLbl)
    (harmsApart : continueLbl ∉ branches.map Branch.label)
    (hR : ∀ x, x ∈ R ↔ x ∈ cases.map (·.2) ∨ (x = defaultLbl ∧ defaultBranches branches ≠ []) ∨
      x ∈ branches.map Branch.label ∨ x = continueLbl) :
    Flows alive M R true false (matchBlocks env examinee examineeTy ty variants branches cases
      defaultLbl continueLbl) := by
  have hset : R = {l | l ∈ cases.map (·.2)} ∪
      ({l | l = defaultLbl ∧ defaultBranches branches ≠ []} ∪
        ({l | l ∈ branches.map Branch.label} ∪ {continueLbl})) := by
    ext x
    exact hR x
  rw [hset]
  refine Lays.bind (flows_matchCases hcases (fun _ => hlabels) ?_ hguards) (fun _ => ?_) ?_
  · intro ha c hc
    obtain ⟨b, hb, hnone, hd⟩ := hends ha (some c.1)
      (Or.inl (List.mem_map.mpr ⟨c, hc, rfl⟩)) (hfound c hc)
    exact ⟨b, List.mem_filter.mpr ⟨hb, by simpa using hd⟩, hnone⟩
  · refine Lays.bind (flows_defaultCase ?_ ?_ ?_) (fun _ => ?_) ?_
    · exact fun _ b hb => hlabels b (List.mem_of_mem_filter hb)
    · intro ha hne
      obtain ⟨b₀, hb₀⟩ := List.exists_mem_of_ne_nil _ hne
      have hd₀ := (List.mem_filter.mp hb₀).2
      obtain ⟨b, hb, hnone, hd⟩ := hends ha none (Or.inr rfl)
        (List.mem_map.mpr ⟨b₀, List.mem_of_mem_filter hb₀, by simpa using hd₀⟩)
      exact ⟨b, List.mem_filter.mpr ⟨hb, by simpa using hd⟩, hnone⟩
    · exact fun b hb => hguards b (List.mem_of_mem_filter hb)
    · refine Lays.andThen (flows_quiet Quiet.undroppedTmp) fun out => ?_
      refine Lays.bind (flows_armBlocks harms (fun _ => hcontinue) hbodies) (fun _ => ?_) ?_
      · refine flows_startBlock ∅ (by intro x; simp) (by simp) ?_
        exact Lays.andThen (flows_quiet (Quiet.addLiveVariable _ _)) fun _ => Lays.pure _
      · intro l hl hl'
        rw [Set.mem_singleton_iff.mp hl'] at hl
        exact harmsApart hl
    · intro l hl hl'
      obtain ⟨rfl, hne⟩ := hl
      have hapart := hdefaultApart hne
      rcases hl' with hl' | hl'
      · exact hapart.1 hl'
      · exact hapart.2 hl'
  · intro l hl hl'
    obtain ⟨hd, ha, hc⟩ := hcasesApart l hl
    rcases hl' with hl' | hl' | hl'
    · exact hl'.2 (hd hl'.1)
    · exact ha hl'
    · exact hc hl'

theorem straight_matchE (id : MetaId) {e : Part} {arms : List Arm} (he : Straight alive e.2)
    (hends : alive → ∀ variants ds, env.ty e.1.id = .enum variants →
      arms.mapM (fun arm => patternDiscriminant variants arm.1) = some ds →
      chainsEnd (ds.zip (arms.map fun arm => arm.2.1.isNone)) = true)
    (hguards : ∀ arm ∈ arms, ∀ g ∈ arm.2.1, Straight alive g.2)
    (hbodies : ∀ arm ∈ arms, Straight alive arm.2.2.2) : Straight alive (matchE env id e arms) := by
  intro M
  unfold matchE
  split
  · rename_i variants hty
    refine Lays.andThen (flows_quiet Quiet.state) fun current => ?_
    refine Lays.skip (allocates_wrap _ _) fun lblPrefix _ _ => ?_
    -- what comes after the default label, which is used or not
    have hrest (M R : Set ℕ) (defaultLbl : LabelRef)
        (hdefault : ∀ ds, arms.mapM (fun arm => patternDiscriminant variants arm.1) = some ds →
          ∀ x, x ∈ R ↔ x = defaultLbl ∧ none ∈ ds) (hR : R ⊆ M) :
        Flows alive M R false false
          (matchWith env id e arms variants current lblPrefix defaultLbl) := by
      refine Lays.reserve (allocates_next _) fun continueLbl hcM hcR => ?_
      refine flows_unwrap fun ds hds => ?_
      refine Lays.reserveAll (allocates_caseLabels _ _) fun s₀ cs s₁ hcs hcsNodup hcsFresh => ?_
      have hperm := env.order.cases_perm lblPrefix cs
      have hlabels := hperm.map (·.2)
      refine Lays.andThen (he _) fun examinee => ?_
      refine Lays.andThen (flows_plain (Plain.assignToVar _ _)) fun examinee => ?_
      refine Lays.andThen (flows_quiet Quiet.undroppedTmp) fun discriminant => ?_
      refine Lays.andThen (flows_switchCode fun _ x hx => ?_) fun _ => ?_
      · rcases List.mem_append.mp hx with hx | hx
        · exact Or.inl (hlabels.mem_iff.mp hx)
        · unfold defaultBranch at hx
          split_ifs at hx with hnone
          · have hx' : x = defaultLbl := by simpa using hx
            exact Or.inr (Or.inr (hR ((hdefault ds hds x).mpr ⟨hx', hnone⟩)))
          · cases hx
      refine Lays.reserveAll (allocates_armBranches _ _ _ _)
        fun s₂ branches s₃ hbranches harmsNodup harmsFresh => ?_
      have heq := armBranches_eq (mapM_length hds) hbranches
      have hdiscriminants : branches.map Branch.discriminant = ds := by
        have hmap := congrArg (List.map Prod.fst) heq
        rw [List.map_map, List.map_map] at hmap
        refine hmap.trans ?_
        exact List.map_fst_zip (le_of_eq (mapM_length hds))
      have hbranch : ∀ b ∈ branches, ∃ arm ∈ arms, b.guard = arm.2.1 ∧ b.body = arm.2.2.2 := by
        intro b hb
        have hmem := List.mem_map_of_mem
          (f := fun b => (b.discriminant, b.pattern, b.guard, b.body)) hb
        rw [heq] at hmem
        obtain ⟨a, ha, hab⟩ := List.mem_map.mp hmem
        refine ⟨a.2, (List.of_mem_zip ha).2, ?_, ?_⟩
        · exact (congrArg (fun x => x.2.2.1) hab).symm
        · exact (congrArg (fun x => x.2.2.2) hab).symm
      have hdefaults : defaultBranches branches ≠ [] ↔ none ∈ ds := by
        rw [← hdiscriminants]
        unfold defaultBranches
        rw [ne_eq, List.filter_eq_nil_iff]
        simp [eq_comm]
      have hsub : ∀ l ∈ (env.order.cases lblPrefix cs).map (·.2), l ∈ cs.map (·.2) :=
        fun l hl => hlabels.mem_iff.mp hl
      refine flows_matchBlocks (hlabels.nodup_iff.mpr hcsNodup) harmsNodup ?_ ?_ ?_ ?_ ?_ ?_ ?_ ?_
        ?_ ?_
      · exact fun b hb => Or.inl (List.mem_map_of_mem hb)
      · exact Or.inr (Or.inr (Or.inl rfl))
      · intro ha d _ hd
        exact branches_end heq (hends ha variants ds hty hds) hd
      · intro c hc
        have hc' := List.mem_map_of_mem (f := Prod.fst) (hperm.mem_iff.mp hc)
        rw [caseLabels_fst hcs, (env.order.discriminants_perm _ _).mem_iff, List.mem_dedup,
          List.mem_filterMap] at hc'
        obtain ⟨d, hd, hdc⟩ := hc'
        rw [hdiscriminants, ← hdc]
        exact hd
      · intro b hb g hg
        obtain ⟨arm, harm, hguard, -⟩ := hbranch b hb
        rw [hguard] at hg
        exact hguards arm harm g hg
      · intro b hb
        obtain ⟨arm, harm, -, hbody⟩ := hbranch b hb
        rw [hbody]
        exact hbodies arm harm
      · intro l hl
        have hl' := hcsFresh l (hsub l hl)
        refine ⟨?_, ?_, ?_⟩
        · intro hld
          by_contra hne
          exact hl'.2 (Or.inr ((hdefault ds hds l).mpr ⟨hld, hdefaults.mp hne⟩))
        · exact fun hla => (harmsFresh l hla).1 (Or.inl (hsub l hl))
        · exact fun hlc => hl'.1 (Or.inl hlc)
      · intro hne
        have hdR : defaultLbl ∈ R := (hdefault ds hds _).mpr ⟨rfl, hdefaults.mp hne⟩
        refine ⟨fun hda => (harmsFresh _ hda).1 (Or.inr (Or.inr (hR hdR))), ?_⟩
        intro hdc
        rw [hdc] at hdR
        exact hcR hdR
      · exact fun hca => (harmsFresh _ hca).1 (Or.inr (Or.inl rfl))
      · intro x
        have hx := hlabels.mem_iff (a := x)
        have hd := hdefault ds hds x
        constructor
        · intro h
          rcases h with h | h | h | h
          · exact Or.inr (Or.inr (Or.inl h))
          · exact Or.inl (hx.mpr h)
          · exact Or.inr (Or.inr (Or.inr h))
          · have hxd := hd.mp h
            exact Or.inr (Or.inl ⟨hxd.1, hdefaults.mpr hxd.2⟩)
        · intro h
          rcases h with h | h | h | h
          · exact Or.inr (Or.inl (hx.mp h))
          · exact Or.inr (Or.inr (Or.inr (hd.mpr ⟨h.1, hdefaults.mp h.2⟩)))
          · exact Or.inl h
          · exact Or.inr (Or.inr (Or.inl h))
    by_cases hnone : ∃ ds, arms.mapM (fun arm => patternDiscriminant variants arm.1) = some ds ∧
        none ∈ ds
    · obtain ⟨ds₀, hds₀, hmem⟩ := hnone
      refine Lays.reserve (allocates_wrap _ _) fun defaultLbl _ _ => ?_
      refine hrest _ _ defaultLbl ?_ (Set.insert_subset_insert (Set.empty_subset M))
      intro ds hds x
      rw [hds₀] at hds
      rw [← Option.some.inj hds]
      simp [hmem]
    · refine Lays.skip (allocates_wrap _ _) fun defaultLbl _ _ => ?_
      refine hrest _ _ defaultLbl ?_ (Set.empty_subset M)
      intro ds hds x
      have hds' : none ∉ ds := fun hmem => hnone ⟨ds, hds, hmem⟩
      simp [hds']
  · exact flows_quiet Quiet.ice

end Lowering

end Roto.Mir
