import RotoCompiler.Lir.ClosedCalls
import RotoCompiler.Lir.SameBytes

/-!
# Generated equality is structural equality

A comparison is right only if the type takes space, and so do the fields in it, those of all
variants included, and if no enum in it has more than 256 variants. If 32 bits are enough for the
offsets of the fields, it is right then.
-/

namespace Roto.Lir
open Mir
open Lib (Memory)

variable (rt : Rt)

/-! ### Comparisons -/

/-- A comparison, where none was asked for before: where the answer is, the code that computes
it, and the functions that are generated for it. -/
def comparison (negated : Bool) (left right : Operand) (ty : Ty) (s : Lowerer) (scopes : ℕ) :
    Option (Operand × List Instruction × List Item) := do
  let (out, s') ← callEqOf rt negated left right ty s
  let (fns, _) ← generateEqs rt (s'.ctx scopes)
  return (out, s'.instructions.drop s.instructions.length, fns)

/-- The LIR for `==` and `!=` is generated, in functions with blocks as they should be, and it
answers whether two values are structurally equal, in any program that has the functions. -/
def EqCorrect (ty : Ty) : Prop :=
  ∀ (negated : Bool) (left right : Operand) (s : Lowerer) (scopes : ℕ), s.eqToGenerate = [] →
    ∃ out code fns, comparison rt negated left right ty s scopes = some (out, code, fns) ∧
      (∀ f ∈ fns, f.wellFormed = true) ∧
      ∀ (X : Type) (p : Program) (env : Externs) (R : RustValues X env) (l : Locals)
        (v w : Value X), (∀ f ∈ fns, p.find f.name = some f) → Given rt R l left ty v →
        Given rt R l right ty w →
          Gives p env s code l out (.bool (negated ^^ Value.eq rt R.eq v w))

/-- Everything in the type takes space, and each discriminant has a byte for all variants. -/
def comparable (ty : Ty) : Bool := everywhere (takesSpace rt) ty && everywhere discriminantsFit ty

variable {rt}

/-! ### The queue -/

theorem mem_eqsOf {t : Ty} {tys : List Ty} :
    t ∈ (tys.flatMap fun u => eqsOf u .eqs) ↔ t ∈ tys ∧ isGenerated t = true := by
  rw [List.mem_flatMap]
  constructor
  · rintro ⟨u, hu, ht⟩
    unfold eqsOf at ht
    split_ifs at ht with hgen
    · obtain rfl := List.mem_singleton.mp ht
      exact ⟨hu, hgen⟩
    · cases ht
  · rintro ⟨ht, hgen⟩
    refine ⟨t, ht, ?_⟩
    rw [eqsOf, if_pos hgen]
    exact List.mem_singleton_self t

theorem eqsOf_size (tys : List Ty) :
    ((tys.flatMap fun u => eqsOf u .eqs).map Ty.size).sum ≤ (tys.map Ty.size).sum := by
  induction tys with
  | nil => exact le_rfl
  | cons t tys ih =>
    have hone : ((eqsOf t .eqs).map Ty.size).sum ≤ t.size := by
      unfold eqsOf
      split_ifs
      · exact le_rfl
      · exact Nat.zero_le _
    rw [List.flatMap_cons, List.map_append, List.sum_append, List.map_cons, List.sum_cons]
    omega

theorem generates_of_sized {ty : Ty} (hgen : isGenerated ty = true)
    (hsized : ∀ t ∈ parts ty, Sized rt t) (ctx : LowerCtx) : Generates rt ty ctx := by
  cases ty with
  | record fields => exact generates_record hsized ctx
  | enum variants =>
    exact generates_enum (fun v hv t ht => hsized t (List.mem_flatMap.mpr ⟨v, hv, ht⟩)) ctx
  | _ => cases hgen

/-- What the function for a type puts into the queue. -/
theorem generateEq_queue {ty : Ty} {ctx ctx' : LowerCtx} {f : Item} (hgen : isGenerated ty = true)
    (hsized : ∀ t ∈ parts ty, Sized rt t) (h : generateEq rt ty ctx = some (f, ctx')) :
    EqFunction rt ty f ∧
      ctx'.eqToGenerate = ctx.eqToGenerate ++ (parts ty).flatMap fun t => eqsOf t .eqs := by
  obtain ⟨f', ctx'', hrun, hqueue, hfunction⟩ := generates_of_sized hgen hsized ctx
  obtain ⟨rfl, rfl⟩ := Prod.mk.inj (Option.some.inj (h.symm.trans hrun))
  exact ⟨hfunction, hqueue⟩

/-- The functions that were generated are those of the types that were asked for, and of the
types that these ask for. -/
structure GeneratedEqs (rt : Rt) (ctx : LowerCtx) (fns : List Item) (keys : List Ty) : Prop where
  queued : ∀ ty ∈ ctx.eqToGenerate, ty ∈ keys
  made : ∀ ty ∈ keys, ∃ f ∈ fns, ∃ ctx₁ ctx₂, generateEq rt ty ctx₁ = some (f, ctx₂) ∧
    ∀ t ∈ ctx₂.eqToGenerate, t ∈ keys

theorem generateEqs_keys {ctx ctx' : LowerCtx} {fns : List Item}
    (h : generateEqs rt ctx = some (fns, ctx')) : ∃ keys, GeneratedEqs rt ctx fns keys := by
  obtain ⟨keys, hmakes, hqueue, -⟩ := Worklist.run_makes generator_eqs.lawful h
  rw [List.nil_append] at hmakes hqueue
  refine ⟨keys, hqueue, fun ty hty => ?_⟩
  obtain ⟨f, hf, hmade⟩ := exists_of_forall₂ hmakes.flip hty
  exact ⟨f, hf, hmade⟩

/-! ### Types that take space are compared -/

theorem sized_parts {ty : Ty} (h : everywhere (takesSpace rt) ty = true) :
    ∀ t ∈ parts ty, Sized rt t :=
  fun t ht => takesSpace_iff.mp (everywhere_iff.mp ((everywhere_iff.mp h).2 t ht)).1

/-- The functions are generated, and their blocks are right. -/
theorem generateEqs_some {ctx : LowerCtx}
    (hgood : ∀ ty ∈ ctx.eqToGenerate, everywhere (takesSpace rt) ty = true ∧ isGenerated ty = true) :
    ∃ fns ctx', generateEqs rt ctx = some (fns, ctx') ∧ ∀ f ∈ fns, ∃ ty, EqFunction rt ty f := by
  let good (ty : Ty) : Prop := everywhere (takesSpace rt) ty = true ∧ isGenerated ty = true
  have hprocess : ∀ ty ctx, good ty → ∃ f ctx' new, (eqWork rt).process ty ctx = some (f, ctx') ∧
      (eqWork rt).queue ctx' = (eqWork rt).queue ctx ++ new ∧ (∀ t ∈ new, good t) ∧
      (new.map Ty.size).sum < ty.size := by
    intro ty ctx hty
    obtain ⟨f, ctx', hrun, hqueue, -⟩ := generates_of_sized hty.2 (sized_parts hty.1) ctx
    refine ⟨f, ctx', _, hrun, hqueue, fun t ht => ?_, (eqsOf_size _).trans_lt (parts_size ty)⟩
    obtain ⟨hpart, hgen⟩ := mem_eqsOf.mp ht
    exact ⟨(everywhere_iff.mp hty.1).2 t hpart, hgen⟩
  obtain ⟨fns, ctx', hrun, hfns⟩ :=
    Worklist.run_some (fun _ => rfl) hprocess hgood (Nat.lt_succ_self _)
  refine ⟨fns, ctx', hrun, fun f hf => ?_⟩
  obtain ⟨ty, ctx₁, ctx₂, hty, hmade⟩ := hfns f hf
  exact ⟨ty, (generateEq_queue hty.2 (sized_parts hty.1) hmade).1⟩

/-- In a program with the functions, each answers whether two values are equal. -/
theorem eqAnswers_of_keys {X : Type} {p : Program} {env : Externs} {R : RustValues X env}
    {ctx : LowerCtx} {fns : List Item} {keys : List Ty} (hkeys : GeneratedEqs rt ctx fns keys)
    (hfind : ∀ f ∈ fns, p.find f.name = some f) {ty : Ty}
    (hspace : everywhere (takesSpace rt) ty = true) (hoffsets : everywhere (offsetsFit rt) ty = true)
    (hdiscriminants : everywhere discriminantsFit ty = true) (hgen : isGenerated ty = true)
    (hmem : ty ∈ keys) : EqAnswers rt R p ty := by
  obtain ⟨f, hf, ctx₁, ctx₂, hrun, hclosed⟩ := hkeys.made ty hmem
  obtain ⟨hfunction, hqueue⟩ := generateEq_queue hgen (sized_parts hspace) hrun
  obtain ⟨-, hspaces⟩ := everywhere_iff.mp hspace
  obtain ⟨hoffset, hoffsets⟩ := everywhere_iff.mp hoffsets
  obtain ⟨hdiscriminant, hdiscriminants⟩ := everywhere_iff.mp hdiscriminants
  have hname := hfind f hf
  rw [hfunction.name] at hname
  refine hfunction.answers hoffset hdiscriminant X p env R hname fun t ht hgen' => ?_
  have hqueued : t ∈ ctx₂.eqToGenerate := by
    rw [hqueue]
    exact List.mem_append_right _ (mem_eqsOf.mpr ⟨ht, hgen'⟩)
  exact eqAnswers_of_keys hkeys hfind (hspaces t ht) (hoffsets t ht) (hdiscriminants t ht) hgen'
    (hclosed t hqueued)
termination_by ty.size
decreasing_by exact size_lt_of_part ht

theorem eqCorrect_of_comparable {ty : Ty} (hoffsets : everywhere (offsetsFit rt) ty = true)
    (h : comparable rt ty = true) : EqCorrect rt ty := by
  intro negated left right s scopes hempty
  obtain ⟨hspace, hdiscriminants⟩ := Bool.and_eq_true_iff.mp h
  have hsized := takesSpace_iff.mp (everywhere_iff.mp hspace).1
  obtain ⟨out, code, s', hemits, hgives⟩ := callEqOf_gives hsized negated left right s
  have hqueue : s'.eqToGenerate = eqsOf ty .eqs := by
    have hqueue := hemits.queue .eqs
    have hnil : s.queue .eqs = [] := hempty
    rw [hnil, List.nil_append] at hqueue
    exact hqueue
  have hone : ∀ t ∈ s'.eqToGenerate, t = ty ∧ isGenerated ty = true := by
    intro t ht
    rw [hqueue, eqsOf] at ht
    split_ifs at ht with hgen
    · exact ⟨List.mem_singleton.mp ht, hgen⟩
    · cases ht
  obtain ⟨fns, ctx', hrun, hfns⟩ := @generateEqs_some rt (s'.ctx scopes) fun t ht => by
    obtain ⟨rfl, hgen⟩ := hone t ht
    exact ⟨hspace, hgen⟩
  obtain ⟨keys, hkeys⟩ := generateEqs_keys hrun
  refine ⟨out, code, fns, ?_, fun f hf => ?_, ?_⟩
  · unfold comparison
    rw [hemits.run]
    simp only [Option.bind_eq_bind, Option.bind_some, hrun, hemits.instructions, List.drop_left]
    rfl
  · obtain ⟨t, hfunction⟩ := hfns f hf
    exact hfunction.wellFormed
  · intro X p env R l v w hfind hv hw
    refine hgives X p env R l v w (fun hgen => ?_) hv hw
    have hqueued : ty ∈ (s'.ctx scopes).eqToGenerate := by
      show ty ∈ s'.eqToGenerate
      rw [hqueue, eqsOf, if_pos hgen]
      exact List.mem_singleton_self ty
    exact eqAnswers_of_keys hkeys hfind hspace hoffsets hdiscriminants hgen (hkeys.queued ty hqueued)

/-! ### Other types are not -/

section
variable {X : Type} {holds : ℕ → Memory → ℕ → X → Prop} {mem : Memory}

theorem exists_holdsAll {fields : List (ℕ × Ty)} (a : ℕ)
    (h : ∀ f ∈ fields, ∀ a, ∃ v, Holds rt holds mem f.2 a v) :
    ∃ vs, HoldsAll rt holds mem fields a vs := by
  induction fields with
  | nil => exact ⟨[], .nil⟩
  | cons f fields ih =>
    obtain ⟨hf, hfields⟩ := List.forall_mem_cons.mp h
    obtain ⟨v, hv⟩ := hf (a + f.1)
    obtain ⟨vs, hvs⟩ := ih hfields
    exact ⟨v :: vs, .cons hv hvs⟩

/-- The fields of a record without a size have none. -/
theorem fields_zero {tys : List Ty} {ls : List Layout} (hls : layoutsOf rt tys = some ls)
    (hzero : (LayoutBuilder.new.addAll ls).finish.size = 0) :
    ∀ t ∈ tys, ∃ l, layoutOf rt t = some l ∧ l.size = 0 := by
  intro t ht
  obtain ⟨i, hi⟩ := List.mem_iff_getElem?.mp ht
  have hl := layoutsOf_getElem? hls i
  rw [hi, Option.bind_some] at hl
  obtain ⟨l, hsome⟩ := Option.isSome_iff_exists.mp
    (layoutOf_isSome (Option.isSome_of_eq_some hls) t ht)
  rw [hsome] at hl
  have hlt : i < (LayoutBuilder.new.placed ls).length := by
    rw [LayoutBuilder.length_placed]
    exact (List.getElem?_eq_some_iff.mp hl).1
  have hinside := LayoutBuilder.placed_inside hl (List.getElem?_eq_getElem hlt)
  have hfinish := (LayoutBuilder.finish_mono (b := LayoutBuilder.new.addAll ls)).1
  exact ⟨l, hsome, by omega⟩

/-- Each type without a size has a value anywhere, if the Rust types have. -/
theorem exists_holds {ty : Ty} {l : Layout} (hx : ∀ id a, ∃ x, holds id mem a x)
    (hl : layoutOf rt ty = some l) (hzero : l.size = 0) (a : ℕ) :
    ∃ v, Holds rt holds mem ty a v := by
  cases hty : ty with
  | unit => exact ⟨.unit, .unit⟩
  | never =>
    rw [hty] at hl
    cases hl
  | primitive p =>
    have hpos := layoutOf_primitive_pos rt p
    rw [hty] at hl
    obtain rfl := Option.some.inj hl
    omega
  | list t =>
    obtain ⟨x, hx⟩ := hx rt.erasedList a
    exact ⟨_, .leaf rfl hx⟩
  | runtime id =>
    obtain ⟨x, hx⟩ := hx id a
    exact ⟨_, .leaf rfl hx⟩
  | enum variants =>
    have hpos := enum_pos (hty ▸ hl)
    omega
  | record fields =>
    rw [hty, layoutOf_record] at hl
    obtain ⟨ls, hls, rfl⟩ := Option.map_eq_some_iff.mp hl
    have hfields := fields_zero hls hzero
    obtain ⟨vs, hvs⟩ := @exists_holdsAll rt X holds mem
      ((LayoutBuilder.new.placed ls).zip (fields.map (·.2))) a fun f hf a => by
        obtain ⟨l, hl, hzero⟩ := hfields f.2 (List.of_mem_zip hf).2
        have hpart : f.2 ∈ parts (.record fields) := (List.of_mem_zip hf).2
        exact exists_holds hx hl hzero a
    exact ⟨.record vs, .record hls hvs⟩
termination_by ty.size
decreasing_by exact hty ▸ size_lt_of_part hpart

end

/-- Nothing is compared for a type that takes no space, also where values should differ. -/
theorem not_eqCorrect_of_zero {ty : Ty} {l : Layout} (hl : layoutOf rt ty = some l)
    (hzero : l.size = 0) : ¬ EqCorrect rt ty := by
  intro h
  let R := sameValues noExterns fun _ _ _ _ => rfl
  obtain ⟨v, hv⟩ := @exists_holds rt Unit R.holds (pointedAt 0).mem ty l (fun _ _ => ⟨(), trivial⟩)
    hl hzero 0
  have hlower := lowerType_zero hl hzero
  have hanswer : ∀ negated, IrValue.bool true = .bool (negated ^^ Value.eq rt R.eq v v) := by
    intro negated
    obtain ⟨out, code, fns, hrun, -, hgives⟩ :=
      h negated (.value (.bool true)) (.value (.bool true)) someLowerer 0 rfl
    have hcall : callEqOf rt negated (.value (.bool true)) (.value (.bool true)) ty someLowerer =
        some (.value (.bool true), someLowerer) := by
      unfold callEqOf
      rw [hlower]
      rfl
    have hcompared : comparison rt negated (.value (.bool true)) (.value (.bool true)) ty
        someLowerer 0 = some (.value (.bool true), [], []) := by
      unfold comparison
      rw [hcall]
      rfl
    rw [hcompared] at hrun
    cases hrun
    have hgiven : Given rt R (pointedAt 0) (.value (.bool true)) ty v := by
      rw [Given, hlower]
      exact ⟨0, hv⟩
    obtain ⟨l', -, -, -, hout⟩ := hgives Unit [] noExterns R (pointedAt 0) v v
      (fun f hf => by cases hf) hgiven hgiven
    exact Option.some.inj hout
  have heq := congrArg IrValue.bits (hanswer false)
  have hne := congrArg IrValue.bits (hanswer true)
  cases hv : Value.eq rt R.eq v v with
  | true =>
    rw [hv] at hne
    cases hne
  | false =>
    rw [hv] at heq
    cases heq

/-- Where the functions are generated with blocks as they should be, everything in the types
takes space. -/
theorem takesSpace_of_keys {ctx : LowerCtx} {fns : List Item} {keys : List Ty}
    (hkeys : GeneratedEqs rt ctx fns keys) (hfns : ∀ f ∈ fns, f.wellFormed = true) {ty : Ty}
    (hsized : Sized rt ty) (hmem : isGenerated ty = true → ty ∈ keys) :
    everywhere (takesSpace rt) ty = true := by
  refine everywhere_iff.mpr ⟨takesSpace_iff.mpr hsized, fun t ht => ?_⟩
  have hgen : isGenerated ty = true := by
    cases ty with
    | record => rfl
    | enum => rfl
    | _ => cases ht
  obtain ⟨f, hf, ctx₁, ctx₂, hrun, hclosed⟩ := hkeys.made ty (hmem hgen)
  obtain ⟨l, hl, -⟩ := hsized
  have hparts := parts_sized (Option.isSome_of_eq_some hl) hrun (hfns f hf)
  obtain ⟨-, hqueue⟩ := generateEq_queue hgen hparts hrun
  refine takesSpace_of_keys hkeys hfns (hparts t ht) fun hgen' => hclosed t ?_
  rw [hqueue]
  exact List.mem_append_right _ (mem_eqsOf.mpr ⟨ht, hgen'⟩)
termination_by ty.size
decreasing_by exact size_lt_of_part ht

theorem takesSpace_of_eqCorrect {ty : Ty} (hinhabited : (layoutOf rt ty).isSome)
    (h : EqCorrect rt ty) : everywhere (takesSpace rt) ty = true := by
  obtain ⟨l, hl⟩ := Option.isSome_iff_exists.mp hinhabited
  have hpos : 0 < l.size :=
    Nat.pos_of_ne_zero fun hzero => not_eqCorrect_of_zero hl hzero h
  have hsized : Sized rt ty := ⟨l, hl, hpos⟩
  let op : Operand := .value (.bool true)
  obtain ⟨out, code, fns, hrun, hfns, -⟩ := h false op op someLowerer 0 rfl
  obtain ⟨out', code', s', hemits, -⟩ := callEqOf_gives hsized false op op someLowerer
  obtain ⟨⟨_, s₁⟩, hcall, hrun⟩ := Option.bind_eq_some_iff.mp hrun
  obtain ⟨rfl, rfl⟩ := Prod.mk.inj (Option.some.inj (hcall.symm.trans hemits.run))
  obtain ⟨⟨fns', ctx'⟩, hgenerate, hrun⟩ := Option.bind_eq_some_iff.mp hrun
  obtain ⟨-, hrun⟩ := Prod.mk.inj (Option.some.inj hrun)
  obtain ⟨-, rfl⟩ := Prod.mk.inj hrun
  obtain ⟨keys, hkeys⟩ := generateEqs_keys hgenerate
  refine takesSpace_of_keys hkeys hfns hsized fun hgen => hkeys.queued ty ?_
  have hqueue : s₁.eqToGenerate = eqsOf ty .eqs := hemits.queue .eqs
  show ty ∈ s₁.eqToGenerate
  rw [hqueue, eqsOf, if_pos hgen]
  exact List.mem_singleton_self ty

/-- Code computes one value. -/
theorem Gives.unique {p : Program} {env : Externs} {s : Lowerer} {code : List Instruction}
    {l : Locals} {out : Operand} {x y : IrValue} (hx : Gives p env s code l out x)
    (hy : Gives p env s code l out y) : x = y := by
  obtain ⟨l₁, hruns₁, -, -, hx⟩ := hx
  obtain ⟨l₂, hruns₂, -, -, hy⟩ := hy
  have hend := Steps.unique (hruns₁.executes [] [] [] 0) (hruns₂.executes [] [] [] 0) rfl rfl
  obtain rfl : l₁ = l₂ := congrArg Machine.locals (Config.running.inj hend)
  exact Option.some.inj (hx.symm.trans hy)

/-- The functions that are generated are a program. -/
theorem find_generateEqs {ctx ctx' : LowerCtx} {fns : List Item}
    (h : generateEqs rt ctx = some (fns, ctx')) : ∀ f ∈ fns, Program.find fns f.name = some f := by
  obtain ⟨keys, hgenerated⟩ := generator_eqs.run h
  have hnodup : (fns.map Item.name).Nodup := by
    rw [hgenerated.names]
    exact hgenerated.nodup.map fun _ _ heq => FunName.generatedEq.inj heq
  intro f hf
  exact find_of_nodup hnodup hf

/-- The code sees bytes only, so it takes two values that are the same bytes to be equal. -/
theorem discriminantsFit_of_eqCorrect {ty : Ty} (hspace : everywhere (takesSpace rt) ty = true)
    (h : EqCorrect rt ty) : everywhere discriminantsFit ty = true := by
  by_contra hmany
  obtain ⟨l, hl, hpos⟩ := takesSpace_iff.mp (everywhere_iff.mp hspace).1
  obtain ⟨mem, -, v, w, hv, hw, heq, hne⟩ :=
    exists_ambiguous hspace (Bool.eq_false_iff.mpr hmany) hl 0
  have hgen : isGenerated ty = true := by
    cases ty with
    | record => rfl
    | enum => rfl
    | _ => exact absurd rfl hmany
  have hpointer : lowerType rt ty = some .pointer := by
    rcases Sized.cases ⟨l, hl, hpos⟩ with ⟨p, irTy, rfl, -⟩ | ⟨-, hpointer⟩
    · cases hgen
    · exact hpointer
  let R := sameValues noExterns fun _ _ _ _ => rfl
  let op : Operand := .value (.pointer 0)
  let start : Locals := { pointedAt 0 with mem := mem }
  obtain ⟨out, code, fns, hrun, -, hgives⟩ := h false op op someLowerer 0 rfl
  have hfind : ∀ f ∈ fns, Program.find fns f.name = some f := by
    obtain ⟨⟨_, s₁⟩, -, hrun⟩ := Option.bind_eq_some_iff.mp hrun
    obtain ⟨⟨fns', ctx'⟩, hgenerate, hrun⟩ := Option.bind_eq_some_iff.mp hrun
    obtain ⟨-, hrun⟩ := Prod.mk.inj (Option.some.inj hrun)
    obtain ⟨-, rfl⟩ := Prod.mk.inj hrun
    exact find_generateEqs hgenerate
  have hgiven : ∀ {u : Value Unit}, HoldsSame rt mem ty 0 u → Given rt R start op ty u :=
    fun hu => .of_pointer hpointer rfl hu
  have hsame := hgives Unit fns noExterns R start v v hfind (hgiven hv) (hgiven hv)
  have hother := hgives Unit fns noExterns R start v w hfind (hgiven hv) (hgiven hw)
  have hbits := congrArg IrValue.bits (hsame.unique hother)
  have heq : Value.eq rt R.eq v v = true := heq
  have hne : Value.eq rt R.eq v w = false := hne
  rw [heq, hne] at hbits
  cases hbits

/-- Generated equality is structural equality, for types in which 32 bits are enough for the
offsets, if and only if everything in them takes space and a byte is enough for the discriminants.
For other types, it is structural equality only then. -/
theorem eqCorrect_iff {ty : Ty} (h : (layoutOf rt ty).isSome) :
    (everywhere (offsetsFit rt) ty = true → comparable rt ty = true → EqCorrect rt ty) ∧
      (EqCorrect rt ty → comparable rt ty = true) := by
  constructor
  · intro hoffsets hcomparable
    exact eqCorrect_of_comparable hoffsets hcomparable
  · intro hcorrect
    have hspace := takesSpace_of_eqCorrect h hcorrect
    exact Bool.and_eq_true_iff.mpr ⟨hspace, discriminantsFit_of_eqCorrect hspace hcorrect⟩

theorem eqCorrect_option :
    EqCorrect pointerRt (.enum [("Some", [.record [("n", .primitive .char)]]), ("None", [])]) :=
  (eqCorrect_iff (by decide)).1 (by decide) (by decide)

/-- `!=` of two units is true. -/
theorem unit_not_eqCorrect : ¬ EqCorrect pointerRt .unit := not_eqCorrect_of_zero rfl rfl

end Roto.Lir
