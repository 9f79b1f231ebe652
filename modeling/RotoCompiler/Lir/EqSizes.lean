import RotoCompiler.Lir.EqFunctions

/-!
# What generated equality asks of the fields

The compiler panics at a field that takes no space, and an uninhabited field of a variant
leaves a block with a second terminator. So where a function is generated and its blocks are
right, all fields have a size.
-/

namespace Roto.Lir
open Mir

variable {α β : Type} {rt : Rt}

/-! ### Fields -/

/-- `lower_type` is unwrapped also for a type that takes no space. -/
theorem callEqByPtr_sized {left right : Var} {ty : Ty} {s s' : Lowerer} {op : Operand}
    (h : callEqByPtr rt left right ty s = some (op, s')) (hinhabited : (layoutOf rt ty).isSome) :
    Sized rt ty := by
  obtain ⟨l, hl⟩ := Option.isSome_iff_exists.mp hinhabited
  by_cases hzero : l.size = 0
  · unfold callEqByPtr at h
    rw [isReferenceType_zero hl hzero] at h
    obtain ⟨irTy, s₁, hunwrap, -⟩ := Lower.bind_some h
    obtain ⟨hlower, -⟩ := Lower.unwrap_some hunwrap
    rw [lowerType_zero hl hzero] at hlower
    cases hlower
  · exact ⟨l, hl, Nat.pos_of_ne_zero hzero⟩

theorem eqFields_sized {left right : Var} {falseLbl : LabelRef} {lbls : List LabelRef}
    {fields : List (ℕ × Ty)} {s s' : Lowerer} {u : Unit} (hlength : lbls.length = fields.length + 1)
    (hinhabited : ∀ f ∈ fields, (layoutOf rt f.2).isSome)
    (h : eqFields rt left right falseLbl lbls (fields.map fun f => (some f.1, f.2)) s = some (u, s')) :
    ∀ f ∈ fields, Sized rt f.2 := by
  induction fields generalizing lbls s with
  | nil => exact fun f hf => nomatch hf
  | cons f fields ih =>
    obtain ⟨off, ty⟩ := f
    obtain ⟨lbl, lbls, rfl⟩ := List.exists_cons_of_length_eq_add_one hlength
    obtain ⟨next, lbls, rfl⟩ := List.exists_cons_of_length_eq_add_one (Nat.succ.inj hlength)
    obtain ⟨hty, hfields⟩ := List.forall_mem_cons.mp hinhabited
    rw [List.map_cons, eqFields_cons] at h
    obtain ⟨_, s₁, hfield, hrest⟩ := Lower.bind_some h
    obtain ⟨_, s₂, -, hfield⟩ := Lower.bind_some hfield
    obtain ⟨out, s₃, hfield, -⟩ := Lower.bind_some hfield
    obtain ⟨_, s₄, -, hfield⟩ := Lower.bind_some hfield
    obtain ⟨_, s₅, -, hcall⟩ := Lower.bind_some hfield
    exact List.forall_mem_cons.mpr ⟨callEqByPtr_sized hcall hty, ih (Nat.succ.inj hlength) hfields hrest⟩

/-! ### Second terminators -/

/-- A block has a terminator before its end. -/
def Lowerer.Spoiled (s : Lowerer) : Prop :=
  ∃ b ∈ s.allBlocks, ∃ i ∈ b.instructions.dropLast, i.isTerminator = true

/-- The computation repairs no block. -/
def StaysSpoiled (m : Lower α) : Prop := ∀ s a s', m s = some (a, s') → s.Spoiled → s'.Spoiled

theorem not_spoiled_of_wellFormed {f : Item} {s : Lowerer} (hblocks : f.blocks = s.allBlocks)
    (h : f.wellFormed = true) : ¬ s.Spoiled := by
  rintro ⟨b, hb, i, hi, ht⟩
  unfold Item.wellFormed at h
  rw [Bool.and_eq_true, List.all_eq_true, hblocks] at h
  have hterminated := h.1 b hb
  unfold Block.terminated at hterminated
  rw [Bool.and_eq_true, List.all_eq_true] at hterminated
  have hnot := hterminated.2 i hi
  rw [ht] at hnot
  cases hnot

namespace StaysSpoiled

theorem of_same {m : Lower α} (h : ∀ s a s', m s = some (a, s') → s'.allBlocks = s.allBlocks) :
    StaysSpoiled m := by
  intro s a s' hrun hs
  unfold Lowerer.Spoiled
  rw [h s a s' hrun]
  exact hs

theorem pure (a : α) : StaysSpoiled (Pure.pure a) := by
  refine of_same fun s b s' h => ?_
  obtain ⟨-, rfl⟩ := Lower.pure_some h
  rfl

theorem bind {m : Lower α} {k : α → Lower β} (hm : StaysSpoiled m) (hk : ∀ a, StaysSpoiled (k a)) :
    StaysSpoiled (m >>= k) := by
  intro s b s' h hs
  obtain ⟨a, s₁, h₁, h₂⟩ := Lower.bind_some h
  exact hk a s₁ b s' h₂ (hm s a s₁ h₁ hs)

theorem unwrap (x : Option α) : StaysSpoiled (unwrap x) := by
  refine of_same fun s b s' h => ?_
  obtain ⟨-, rfl⟩ := Lower.unwrap_some h
  rfl

theorem emit (i : Instruction) : StaysSpoiled (emit i) := by
  rintro s a s' h ⟨b, hb, j, hj, ht⟩
  obtain rfl := Lower.emit_some h
  rcases List.mem_append.mp hb with hb | hb
  · exact ⟨b, List.mem_append_left _ hb, j, hj, ht⟩
  · obtain rfl := List.mem_singleton.mp hb
    refine ⟨⟨s.label, s.instructions ++ [i]⟩, by simp [Lowerer.allBlocks], j, ?_, ht⟩
    rw [List.dropLast_concat]
    exact List.mem_of_mem_dropLast hj

theorem newBlock (lbl : LabelRef) : StaysSpoiled (newBlock lbl) := by
  rintro s a s' h ⟨b, hb, hspoiled⟩
  obtain rfl := Lower.modify_some h
  exact ⟨b, List.mem_append_left _ hb, hspoiled⟩

theorem newTmp (ty : IrType) : StaysSpoiled (newTmp ty) := by
  refine of_same fun s a s' h => ?_
  obtain ⟨-, rfl⟩ := Prod.mk.inj (Option.some.inj h)
  rfl

theorem wrapInternals (n : ℕ) : StaysSpoiled (wrapInternals n) := by
  refine of_same fun s a s' h => ?_
  rw [wrapInternals_run] at h
  obtain ⟨-, rfl⟩ := Prod.mk.inj (Option.some.inj h)
  rfl

theorem readTmp (ptr : Var) (irTy : IrType) : StaysSpoiled (readTmp ptr irTy) :=
  (newTmp irTy).bind fun _ => (emit _).bind fun _ => pure _

theorem offset (v : Var) (off : ℕ) : StaysSpoiled (offset v off) := by
  unfold Lir.offset
  split_ifs
  · exact pure v
  · exact (newTmp .pointer).bind fun _ => (emit _).bind fun _ => pure _

theorem callEqOf (negated : Bool) (left right : Operand) (ty : Ty) :
    StaysSpoiled (callEqOf rt negated left right ty) := by
  have hnot : ∀ dest, StaysSpoiled (emitNot negated dest) := by
    intro dest
    unfold emitNot
    split_ifs
    · exact emit _
    · exact pure ()
  have hcall : ∀ ty : Ty, StaysSpoiled
      (modify fun s : Lowerer => { s with eqToGenerate := s.eqToGenerate ++ [ty] }) := by
    intro ty
    refine of_same fun s a s' h => ?_
    obtain rfl := Lower.modify_some h
    rfl
  unfold Lir.callEqOf
  split
  · exact pure _
  · refine (newTmp .bool).bind fun dest => ?_
    split
    · exact (emit _).bind fun _ => (hnot dest).bind fun _ => pure _
    · exact (emit _).bind fun _ => (hcall ty).bind fun _ => (hnot dest).bind fun _ => pure _
  all_goals exact (newTmp .bool).bind fun _ => (emit _).bind fun _ => pure _

theorem callEqByPtr (left right : Var) (ty : Ty) : StaysSpoiled (callEqByPtr rt left right ty) := by
  unfold Lir.callEqByPtr
  split
  · exact pure _
  · exact callEqOf _ _ _ ty
  · exact (unwrap _).bind fun irTy => (readTmp left irTy).bind fun _ =>
      (readTmp right irTy).bind fun _ => callEqOf _ _ _ ty

theorem eqFields (left right : Var) (falseLbl : LabelRef) (lbls : List LabelRef)
    (fields : List (Option ℕ × Ty)) : StaysSpoiled (eqFields rt left right falseLbl lbls fields) := by
  induction fields generalizing lbls with
  | nil =>
    cases lbls with
    | nil => exact pure ()
    | cons lbl lbls => cases lbls <;> exact pure ()
  | cons f fields ih =>
    obtain ⟨off, ty⟩ := f
    cases lbls with
    | nil => exact pure ()
    | cons lbl lbls =>
      cases lbls with
      | nil => exact pure ()
      | cons next lbls =>
        refine (newBlock lbl).bind fun _ => ?_
        cases off with
        | none => exact (emit _).bind fun _ => ih _
        | some off =>
          have hfield : StaysSpoiled (eqField rt left right off ty) :=
            (offset left off).bind fun _ => (offset right off).bind fun _ => callEqByPtr _ _ ty
          exact hfield.bind fun _ => (emit _).bind fun _ => ih _

theorem returnBool (lbl : LabelRef) (b : Bool) : StaysSpoiled (returnBool lbl b) :=
  (newBlock lbl).bind fun _ => emit _

theorem eqVariant (left right : Var) (falseLbl variantLbl : LabelRef) (tys : List Ty) :
    StaysSpoiled (eqVariant rt left right falseLbl variantLbl tys) := by
  refine (wrapInternals _).bind fun lbls => ?_
  cases eqVariantFields rt tys with
  | none => exact emit _
  | some fields =>
    exact (newBlock _).bind fun _ => (unwrap _).bind fun _ => (emit _).bind fun _ =>
      (eqFields _ _ _ _ _).bind fun _ => (unwrap _).bind fun _ => returnBool _ _

theorem eqVariants (left right : Var) (falseLbl : LabelRef) (lbls : List LabelRef)
    (variants : List (Identifier × List Ty)) :
    StaysSpoiled (eqVariants rt left right falseLbl lbls variants) := by
  induction variants generalizing lbls with
  | nil => cases lbls <;> exact pure ()
  | cons v variants ih =>
    cases lbls with
    | nil => exact pure ()
    | cons lbl lbls => exact (eqVariant left right falseLbl lbl v.2).bind fun _ => ih lbls

end StaysSpoiled

/-! ### Whole functions -/

/-- The current block has its terminator. -/
def Lowerer.Closed (s : Lowerer) : Prop :=
  ∃ is t, s.instructions = is ++ [t] ∧ t.isTerminator = true

/-- Fields that are compared have a size. -/
theorem placed_sized {left right : Var} {falseLbl : LabelRef} {lbls : List LabelRef}
    {tys : List Ty} {ls : List Layout} {s s' : Lowerer} {u : Unit} (hls : layoutsOf rt tys = some ls)
    (b : LayoutBuilder) (hlength : lbls.length = tys.length + 1)
    (h : eqFields rt left right falseLbl lbls
      ((((b.placed ls).map asU32).zip tys).map fun f => (some f.1, f.2)) s = some (u, s')) :
    ∀ t ∈ tys, Sized rt t := by
  have hlength' : lbls.length = (((b.placed ls).map asU32).zip tys).length + 1 := by
    simp [hlength, layoutsOf_length hls]
  have hinhabited : ∀ f ∈ ((b.placed ls).map asU32).zip tys, (layoutOf rt f.2).isSome :=
    fun f hf => layoutOf_isSome (Option.isSome_of_eq_some hls) f.2 (List.of_mem_zip hf).2
  have hsized := eqFields_sized hlength' hinhabited h
  intro t ht
  rw [← placed_types hls b] at ht
  obtain ⟨f, hf, rfl⟩ := List.mem_map.mp ht
  exact hsized f hf

theorem eqVariant_sized {left right : Var} {falseLbl variantLbl : LabelRef} {tys : List Ty}
    {s s' : Lowerer} {u : Unit} (hclosed : s.Closed)
    (h : eqVariant rt left right falseLbl variantLbl tys s = some (u, s')) :
    s'.Closed ∧ (¬ s'.Spoiled → ∀ t ∈ tys, Sized rt t) := by
  obtain ⟨lbls, s₁, hwrap, h⟩ := Lower.bind_some h
  rw [wrapInternals_run] at hwrap
  obtain ⟨rfl, rfl⟩ := Prod.mk.inj (Option.some.inj hwrap)
  cases hls : layoutsOf rt tys with
  | none =>
    have hfields : eqVariantFields rt tys = none := by
      rw [eqVariantFields, variantFields, hls]
      rfl
    simp only [hfields] at h
    obtain rfl := Lower.emit_some h
    obtain ⟨is, t, his, ht⟩ := hclosed
    refine ⟨⟨_, _, rfl, rfl⟩, fun hnot => absurd ?_ hnot⟩
    refine ⟨⟨s.label, s.instructions ++ [.ret (some (.value (.bool true)))]⟩,
      by simp [Lowerer.allBlocks], t, ?_, ht⟩
    rw [List.dropLast_concat, his]
    simp
  | some ls =>
    simp only [eqVariantFields_eq hls] at h
    obtain ⟨_, s₁, -, h⟩ := Lower.bind_some h
    obtain ⟨_, s₂, -, h⟩ := Lower.bind_some h
    obtain ⟨_, s₃, -, h⟩ := Lower.bind_some h
    obtain ⟨_, s₄, hrun, h⟩ := Lower.bind_some h
    obtain ⟨_, s₅, -, h⟩ := Lower.bind_some h
    obtain ⟨_, s₆, hnew, h⟩ := Lower.bind_some h
    obtain rfl := Lower.emit_some h
    obtain rfl := Lower.modify_some hnew
    exact ⟨⟨[], _, rfl, rfl⟩, fun _ => placed_sized hls .tagged List.length_range' hrun⟩

theorem eqVariants_sized {left right : Var} {falseLbl : LabelRef} {lbls : List LabelRef}
    {variants : List (Identifier × List Ty)} {s s' : Lowerer} {u : Unit}
    (hlength : lbls.length = variants.length) (hclosed : s.Closed)
    (h : eqVariants rt left right falseLbl lbls variants s = some (u, s')) (hnot : ¬ s'.Spoiled) :
    ∀ v ∈ variants, ∀ t ∈ v.2, Sized rt t := by
  induction variants generalizing lbls s with
  | nil => exact fun v hv => nomatch hv
  | cons v variants ih =>
    obtain ⟨lbl, lbls, rfl⟩ := List.exists_cons_of_length_eq_add_one hlength
    obtain ⟨_, s₁, hvariant, hrest⟩ := Lower.bind_some h
    obtain ⟨hclosed₁, hsized⟩ := eqVariant_sized hclosed hvariant
    have hnot₁ : ¬ s₁.Spoiled := fun hs =>
      hnot (StaysSpoiled.eqVariants left right falseLbl lbls variants s₁ _ s' hrest hs)
    exact List.forall_mem_cons.mpr ⟨hsized hnot₁, ih (Nat.succ.inj hlength) hclosed₁ hrest⟩

/-- Where a function of an inhabited type is generated, with blocks that are right, all fields of
the type have a size. -/
theorem parts_sized {ty : Ty} {ctx ctx' : LowerCtx} {f : Item} (hinhabited : (layoutOf rt ty).isSome)
    (h : generateEq rt ty ctx = some (f, ctx')) (hf : f.wellFormed = true) :
    ∀ t ∈ parts ty, Sized rt t := by
  obtain ⟨⟨_, s⟩, hbody, h⟩ := Option.bind_eq_some_iff.mp h
  obtain ⟨rfl, rfl⟩ := Prod.mk.inj (Option.some.inj h)
  have hnot : ¬ s.Spoiled := not_spoiled_of_wellFormed rfl hf
  cases ty with
  | record fields =>
    rw [layoutOf_record, Option.isSome_map] at hinhabited
    obtain ⟨ls, hls⟩ := Option.isSome_iff_exists.mp hinhabited
    have hbody : generateEqBodyRecord rt ⟨ctx.scopes, .explicit "left"⟩ ⟨ctx.scopes, .explicit "right"⟩
        fields ctx.lowerer = some ((), s) := hbody
    rw [generateEqBodyRecord_run, eqRecordFields_eq hls] at hbody
    obtain ⟨_, s₁, hbody, -⟩ := Lower.bind_some hbody
    obtain ⟨_, s₂, hrun, -⟩ := Lower.bind_some hbody
    refine placed_sized hls .new ?_ hrun
    rw [List.length_range', parts, List.length_map]
  | enum variants =>
    have hbody : generateEqBodyEnum rt ⟨ctx.scopes, .explicit "left"⟩ ⟨ctx.scopes, .explicit "right"⟩
        variants ctx.lowerer = some ((), s) := hbody
    obtain ⟨code, x, s₁, hentry⟩ := @eqEntry_spec ⟨ctx.scopes, .explicit "left"⟩
      ⟨ctx.scopes, .explicit "right"⟩ variants.length ctx.lowerer (old_explicit _ ctx.scopes "right")
    rw [generateEqBodyEnum_eq] at hbody
    obtain ⟨_, s₂, hrun, hbody⟩ := Lower.bind_some hbody
    obtain ⟨rfl, rfl⟩ := Prod.mk.inj (Option.some.inj (hrun.symm.trans hentry.run))
    obtain ⟨_, s₃, hvariants, hreturn⟩ := Lower.bind_some hbody
    have hnot₃ : ¬ s₃.Spoiled := fun hs => hnot (StaysSpoiled.returnBool _ _ s₃ _ s hreturn hs)
    have hsized := eqVariants_sized List.length_range' ⟨[], _, hentry.instructions, rfl⟩ hvariants hnot₃
    intro t ht
    obtain ⟨v, hv, ht⟩ := List.mem_flatMap.mp ht
    exact hsized v hv t ht
  | _ => exact fun t ht => by cases ht

end Roto.Lir
