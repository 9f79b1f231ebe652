import RotoCompiler.Mir.Lowerer

/-!
# Matches on enums (typechecker/expr.rs, mir/lower/match_expr.rs)

What the type checker takes as exhaustive, and the switch on the discriminant that a match is
lowered to. The labels of the cases come out of a hash map, so their order is open.
-/

namespace Roto.Mir
open Ast (Pattern MatchArm)

abbrev Variants := List (Identifier × List Ty)

/-! ### The check -/

/-- The fields of a pattern are the ones of the variant. -/
def fieldsMatch (tys : List Ty) (fields : Option (List (Meta Identifier))) : Bool :=
  match tys, fields with
  | [], none => true
  | [], some _ => false
  | tys, some fields => tys.length = fields.length
  | _, none => false

/-- The loop of `match_expr` over the arms, with the variants that were used and whether there
was a default arm; `none` is an error. -/
def checkArms (variants : Variants) :
    List MatchArm → List Identifier → Bool → Option (List Identifier × Bool)
  | [], usedVariants, defaultArm => some (usedVariants, defaultArm)
  | arm :: arms, usedVariants, defaultArm =>
    if defaultArm then none
    else match arm.pattern with
      | .underscore => checkArms variants arms usedVariants arm.guard.isNone
      | .enumVariant variant fields => do
        let v ← variants.find? fun v => v.1 = variant.node
        if !fieldsMatch v.2 fields then none
        else if arm.guard.isSome || usedVariants.contains variant.node then
          checkArms variants arms usedVariants false
        else checkArms variants arms (usedVariants ++ [variant.node]) false

def isExhaustive (variants : Variants) (arms : List MatchArm) : Bool :=
  match checkArms variants arms [] false with
  | some (usedVariants, defaultArm) => defaultArm || variants.length ≤ usedVariants.length
  | none => false

/-! ### The switch -/

/-- The discriminant of a pattern; the outer `none` is a failed `unwrap`. -/
def patternDiscriminant (variants : Variants) : Pattern → Option (Option ℕ)
  | .enumVariant variant _ => (variants.findIdx? fun v => v.1 = variant.node).map some
  | .underscore => some none

def armDiscriminants (variants : Variants) (arms : List MatchArm) : Option (List (Option ℕ)) :=
  arms.mapM fun arm => patternDiscriminant variants arm.pattern

/-- `all_discriminants`, in some order, with a label for each. -/
structure CaseLabels (discriminants : List (Option ℕ)) (cases : List (ℕ × LabelRef)) : Prop where
  nodup : (cases.map (·.1)).Nodup
  mem : ∀ d, d ∈ cases.map (·.1) ↔ some d ∈ discriminants

/-- The label of the default case, if there is an arm for it. -/
def defaultBranch (discriminants : List (Option ℕ)) (defaultLbl : LabelRef) : Option LabelRef :=
  if none ∈ discriminants then some defaultLbl else none

/-- What `match` and `question_mark` emit to switch on a variable. -/
def switchCode (discriminant examinee : Var) (branches : List (ℕ × LabelRef))
    (default : Option LabelRef) : List Instruction :=
  [.assign (Place.new discriminant .u8) .u8 (.discriminant examinee),
    .switch discriminant branches default]

/-- The branch that is for a variant. -/
def branchOf (branches : List (ℕ × LabelRef)) (default : Option LabelRef) (idx : ℕ) :
    Option LabelRef :=
  ((branches.find? fun b => b.1 = idx).map (·.2)).or default

/-! ### An exhaustive match has a branch for each variant -/

/-- The names that the arms have a pattern for. -/
def Covers (arms : List MatchArm) (name : Identifier) : Prop :=
  ∃ arm ∈ arms, ∃ variant fields, arm.pattern = .enumVariant variant fields ∧ variant.node = name

theorem Covers.cons {arms : List MatchArm} {name : Identifier} (h : Covers arms name)
    (arm : MatchArm) : Covers (arm :: arms) name := by
  obtain ⟨a, ha, hpattern⟩ := h
  exact ⟨a, List.mem_cons_of_mem arm ha, hpattern⟩

/-- What the check keeps track of. -/
structure Used (variants : Variants) (arms : List MatchArm) (before after : List Identifier) :
    Prop where
  nodup : after.Nodup
  names : after ⊆ variants.map (·.1)
  covered : ∀ name ∈ after, name ∈ before ∨ Covers arms name

theorem Used.cons {variants : Variants} {arms : List MatchArm} {before before' after : List Identifier}
    (h : Used variants arms before' after) (arm : MatchArm)
    (hbefore : ∀ name ∈ before', name ∈ before ∨ Covers (arm :: arms) name) :
    Used variants (arm :: arms) before after where
  nodup := h.nodup
  names := h.names
  covered name hname := by
    rcases h.covered name hname with hmem | hcovers
    · exact hbefore name hmem
    · exact .inr (hcovers.cons arm)

theorem checkArms_used {variants : Variants} (arms : List MatchArm) {used used' : List Identifier}
    {default' : Bool} (h : checkArms variants arms used false = some (used', default'))
    (hnodup : used.Nodup) (hnames : used ⊆ variants.map (·.1)) :
    Used variants arms used used' ∧
      (default' = true → ∃ arm ∈ arms, arm.pattern = .underscore) := by
  induction arms generalizing used with
  | nil =>
    obtain ⟨rfl, rfl⟩ := Prod.mk.inj (Option.some.inj h)
    exact ⟨⟨hnodup, hnames, fun _ hname => .inl hname⟩, fun h => nomatch h⟩
  | cons arm arms ih =>
    rw [checkArms, if_neg (by simp)] at h
    cases hpattern : arm.pattern with
    | underscore =>
      simp only [hpattern] at h
      have hhere : ∃ a ∈ arm :: arms, a.pattern = .underscore :=
        ⟨arm, List.mem_cons_self, hpattern⟩
      cases hguard : arm.guard.isNone with
      | false =>
        rw [hguard] at h
        obtain ⟨hused, -⟩ := ih h hnodup hnames
        exact ⟨hused.cons arm fun _ hname => .inl hname, fun _ => hhere⟩
      | true =>
        rw [hguard] at h
        cases arms with
        | nil =>
          obtain ⟨rfl, rfl⟩ := Prod.mk.inj (Option.some.inj h)
          exact ⟨⟨hnodup, hnames, fun _ hname => .inl hname⟩, fun _ => hhere⟩
        | cons next rest =>
          rw [checkArms, if_pos rfl] at h
          cases h
    | enumVariant variant fields =>
      simp only [hpattern] at h
      obtain ⟨v, hfind, h⟩ := Option.bind_eq_some_iff.mp h
      have hname : v.1 = variant.node := by simpa using List.find?_some hfind
      have hin : variant.node ∈ variants.map (·.1) :=
        hname ▸ List.mem_map_of_mem (List.mem_of_find?_eq_some hfind)
      split_ifs at h with hfields hskip
      · obtain ⟨hused, hdefault⟩ := ih h hnodup hnames
        refine ⟨hused.cons arm fun _ hname => .inl hname, fun hd => ?_⟩
        obtain ⟨a, ha, hunder⟩ := hdefault hd
        exact ⟨a, List.mem_cons_of_mem arm ha, hunder⟩
      · have hnew : variant.node ∉ used := by
          intro hmem
          exact hskip (by simp [hmem])
        have hnodup' : (used ++ [variant.node]).Nodup := by
          rw [List.nodup_append]
          refine ⟨hnodup, List.nodup_singleton _, fun a ha b hb => ?_⟩
          rw [List.mem_singleton.mp hb]
          exact fun heq => hnew (heq ▸ ha)
        have hnames' : used ++ [variant.node] ⊆ variants.map (·.1) :=
          List.append_subset.mpr ⟨hnames, by simpa using hin⟩
        obtain ⟨hused, hdefault⟩ := ih h hnodup' hnames'
        refine ⟨hused.cons arm fun name hmem => ?_, fun hd => ?_⟩
        · rcases List.mem_append.mp hmem with hmem | hmem
          · exact .inl hmem
          · rw [List.mem_singleton.mp hmem]
            exact .inr ⟨arm, List.mem_cons_self, variant, fields, hpattern, rfl⟩
        · obtain ⟨a, ha, hunder⟩ := hdefault hd
          exact ⟨a, List.mem_cons_of_mem arm ha, hunder⟩

theorem mem_armDiscriminants {variants : Variants} {arms : List MatchArm}
    {ds : List (Option ℕ)} (h : armDiscriminants variants arms = some ds) {arm : MatchArm}
    (harm : arm ∈ arms) {d : Option ℕ} (hd : patternDiscriminant variants arm.pattern = some d) :
    d ∈ ds := by
  induction arms generalizing ds with
  | nil => cases harm
  | cons a arms ih =>
    rw [armDiscriminants, List.mapM_cons] at h
    obtain ⟨d', hd', h⟩ := Option.bind_eq_some_iff.mp h
    obtain ⟨ds', hds', h⟩ := Option.bind_eq_some_iff.mp h
    obtain rfl := Option.some.inj h
    rcases List.mem_cons.mp harm with rfl | harm
    · rw [hd] at hd'
      obtain rfl := Option.some.inj hd'
      exact List.mem_cons_self
    · exact List.mem_cons_of_mem _ (ih hds' harm)

/-- A variant is found by its name. -/
theorem findIdx_variant {variants : Variants} (hnames : (variants.map (·.1)).Nodup) {idx : ℕ}
    (hidx : idx < variants.length) :
    variants.findIdx? (fun v => v.1 = variants[idx].1) = some idx := by
  rw [List.findIdx?_eq_some_iff_getElem]
  refine ⟨hidx, by simp, fun j hj => ?_⟩
  have hj' : j < (variants.map (·.1)).length := by simpa using hj.trans hidx
  have hidx' : idx < (variants.map (·.1)).length := by simpa using hidx
  have hne : variants[j].1 ≠ variants[idx].1 := by
    intro heq
    have hsame : (variants.map (·.1))[j] = (variants.map (·.1))[idx] := by simpa using heq
    have heq' : j = idx := hnames.getElem_inj_iff.mp hsame
    omega
  simpa using hne

/-- An accepted match without a default arm has all variants. -/
theorem exhaustive_covers {variants : Variants} (hnames : (variants.map (·.1)).Nodup)
    {arms : List MatchArm} (h : isExhaustive variants arms = true) {ds : List (Option ℕ)}
    (hds : armDiscriminants variants arms = some ds) :
    none ∈ ds ∨ ∀ idx < variants.length, some idx ∈ ds := by
  unfold isExhaustive at h
  cases hcheck : checkArms variants arms [] false with
  | none =>
    rw [hcheck] at h
    cases h
  | some r =>
    obtain ⟨used, defaultArm⟩ := r
    obtain ⟨hused, hdefault⟩ := checkArms_used arms hcheck List.nodup_nil (List.nil_subset _)
    rw [hcheck] at h
    simp only [Bool.or_eq_true, decide_eq_true_eq] at h
    rcases h with hd | hlength
    · obtain ⟨arm, harm, hpattern⟩ := hdefault hd
      exact .inl (mem_armDiscriminants hds harm (by rw [hpattern]; rfl))
    · refine .inr fun idx hidx => ?_
      have hperm : used.Perm (variants.map (·.1)) :=
        (hused.nodup.subperm hused.names).perm_of_length_le (by simpa using hlength)
      have hmem : variants[idx].1 ∈ used :=
        hperm.mem_iff.mpr (List.mem_map_of_mem (List.getElem_mem hidx))
      rcases hused.covered _ hmem with hnil | ⟨arm, harm, variant, fields, hpattern, hname⟩
      · cases hnil
      · refine mem_armDiscriminants hds harm ?_
        rw [hpattern, patternDiscriminant, hname, findIdx_variant hnames hidx]
        rfl

end Roto.Mir
