import RotoCompiler.Lir.HandedOver

/-!
# Closed calls

The items of a program are lowered one after the other, and then the functions that they ask
for are generated. When all is done, every function that is named is there.
-/

namespace Roto.Lir
open Mir TypeChecker Roto.Value

variable {env : LowerEnv} {rt : Rt} {R : Registry} {uf : UnionFind}

/-! ### Contexts -/

/-- A function is one that will be generated. -/
def LowerCtx.queued (ctx : LowerCtx) : FunName → Prop
  | .item _ => False
  | .generatedClone ty => ty ∈ ctx.clonesToGenerate
  | .generatedDrop ty => ty ∈ ctx.dropsToGenerate
  | .generatedEq ty => ty ∈ ctx.eqToGenerate

structure LowerCtx.Grows (ctx ctx' : LowerCtx) : Prop where
  queued : ∀ func, ctx.queued func → ctx'.queued func
  recorded : ctx.runtimeFunctions ⊆ ctx'.runtimeFunctions

theorem LowerCtx.Grows.refl (ctx : LowerCtx) : ctx.Grows ctx := ⟨fun _ h => h, List.Subset.refl _⟩

theorem LowerCtx.Grows.trans {ctx ctx₁ ctx₂ : LowerCtx} (h : ctx.Grows ctx₁) (h' : ctx₁.Grows ctx₂) :
    ctx.Grows ctx₂ :=
  ⟨fun func hf => h'.queued func (h.queued func hf), List.Subset.trans h.recorded h'.recorded⟩

theorem queued_ctx (s : Lowerer) (scopes : ℕ) (func : FunName) :
    (s.ctx scopes).queued func ↔ s.queued func := by
  cases func <;> rfl

theorem queued_lowerer (ctx : LowerCtx) (func : FunName) :
    ctx.lowerer.queued func ↔ ctx.queued func := by
  cases func <;> rfl

theorem exists_of_forall₂ {α β : Type} {r : α → β → Prop} {as : List α} {bs : List β}
    (h : List.Forall₂ r as bs) {b : β} (hb : b ∈ bs) : ∃ a ∈ as, r a b := by
  induction h with
  | nil => cases hb
  | @cons a c as bs hac _ ih =>
    rcases List.mem_cons.mp hb with rfl | hb
    · exact ⟨a, List.mem_cons_self, hac⟩
    · obtain ⟨a', ha', hr⟩ := ih hb
      exact ⟨a', List.mem_cons_of_mem _ ha', hr⟩

/-! ### Items -/

/-- An item is lowered to `f`, in a state that ends in `s`. -/
structure ItemRun (env : LowerEnv) (ctx : LowerCtx) (item : Mir.Item) (f : AnyItem)
    (s : Lowerer) (irParams : List (Identifier × IrType)) : Prop where
  inhabited : item.inhabited env.rt
  vars : f.vars = s.vars
  instructions : f.instructions = s.emitted
  name : f.name = .item item.name
  param : f.param = paramTypes item.scope irParams
  run : ∃ ctx₁ params returnType forceReferenceReturn, ctx.Grows ctx₁ ∧
    ctx₁.runtimeFunctions = ctx.runtimeFunctions ∧
    itemBlocks env ctx₁ item params returnType forceReferenceReturn = some s ∧
    ((∃ c mirTy name, f = .constant c ∧ item.ty = .constant mirTy name ∧
        ctx₁.queued (.generatedDrop c.ty)) ∧ irParams = [] ∨
      ∃ g sig, f = .function g ∧ item.ty = .function params sig ∧
        itemSignature env.rt params sig = some (some g.irSignature) ∧
        irParams = g.irSignature.parameters)

theorem instructions_of_allBlocks (s : Lowerer) :
    s.allBlocks.flatMap Block.instructions = s.emitted := by
  simp [Lowerer.allBlocks, Lowerer.emitted]

theorem mem_itemParameters {params : List (Mir.Var × Ty)} {ps : List (Identifier × IrType)}
    (h : itemParameters rt params = some ps) {p : Identifier × IrType} (hp : p ∈ ps) :
    ∃ q ∈ params, q.1.kind = .explicit p.1 ∧ lowerType rt q.2 = some p.2 := by
  induction params generalizing ps with
  | nil =>
    obtain rfl := Option.some.inj h
    cases hp
  | cons q params ih =>
    obtain ⟨var, ty⟩ := q
    rw [itemParameters] at h
    cases hty : lowerType rt ty with
    | none =>
      rw [hty] at h
      obtain ⟨q, hq, hrest⟩ := ih h hp
      exact ⟨q, List.mem_cons_of_mem _ hq, hrest⟩
    | some irTy =>
      simp only [hty] at h
      cases hvar : var.kind with
      | tmp idx => simp [hvar] at h
      | explicit x =>
        simp only [hvar] at h
        obtain ⟨qs, hqs, rfl⟩ := Option.map_eq_some_iff.mp h
        rcases List.mem_cons.mp hp with rfl | hp
        · exact ⟨(var, ty), List.mem_cons_self, hvar, hty⟩
        · obtain ⟨q, hq, hrest⟩ := ih hqs hp
          exact ⟨q, List.mem_cons_of_mem _ hq, hrest⟩

variable {P : CheckedProgram env R uf} {m : Mir.Item} {ctx : LowerCtx} {f : AnyItem} {s : Lowerer}
  {irParams : List (Identifier × IrType)}

theorem ItemRun.grows (h : ItemRun env ctx m f s irParams) (hm : m ∈ P.items) (scopes : ℕ) :
    ctx.Grows (s.ctx scopes) := by
  obtain ⟨ctx₁, params, returnType, force, hgrows, -, hrun, -⟩ := h.run
  obtain ⟨label, hlater⟩ := itemBlocks_later (P.checked m hm) hrun
  refine hgrows.trans ⟨fun func hf => ?_, hlater.runtimeFunctions⟩
  refine (queued_ctx s scopes func).mpr (hlater.queued func ?_)
  cases func <;> exact hf

/-- All that a lowered item emits is accounted for. -/
theorem ItemRun.accounted (h : ItemRun env ctx m f s irParams) (hP : P.Callable)
    (hm : m ∈ P.items) :
    (∀ i ∈ f.instructions, Accounted (P.site m.scope irParams) s i) ∧
      ∀ e ∈ s.runtimeFunctions, e ∈ ctx.runtimeFunctions ∨ P.Records e.1 e.2 := by
  obtain ⟨ctx₁, params, returnType, force, -, hrecorded, hrun, -⟩ := h.run
  have hrelies : ∀ label, ∀ i ∈ m.instructions, Relies (P.site m.scope irParams) env
      (Later (ctx₁.itemLowerer m label (itemVars env params m))) i :=
    fun label i hi => hP.relies hm h.inhabited rfl hi
  obtain ⟨label, -, hgained⟩ := itemBlocks_calls (P.checked m hm) hrun hrelies
  constructor
  · intro i hi
    rw [h.instructions] at hi
    rcases hgained.emitted i hi with hi | hi
    · cases hi
    · exact hi
  · intro e he
    rw [← hrecorded]
    exact hgained.runtime e he

theorem ItemRun.type (h : ItemRun env ctx m f s irParams) :
    f.type = s.type (P.site m.scope irParams) := by
  funext op
  rw [AnyItem.type, h.vars, h.param]
  rfl

/-- A variable of an item keeps the type that it is declared with. -/
theorem ItemRun.declared (h : ItemRun env ctx m f s irParams) (hm : m ∈ P.items) {v : Mir.Var}
    {irTy : IrType} (hv : m.irType env.rt v = some irTy) :
    f.type (.place (lowerVar v)) = some irTy := by
  have hchecked := P.checked m hm
  obtain ⟨ctx₁, params, returnType, force, -, -, hrun, -⟩ := h.run
  obtain ⟨label, hlater⟩ := itemBlocks_later hchecked hrun
  rw [h.type (P := P)]
  exact hlater.type (type_of_irType rfl hchecked.vars hv)

/-- The type of a variable of an item, once it is lowered. -/
theorem ItemRun.irType (h : ItemRun env ctx m f s irParams) (hm : m ∈ P.items) {v : Mir.Var}
    {irTy : IrType} (htmp : ∀ k, v.kind = .tmp k → k < m.tmpIdx)
    (hv : f.type (.place (lowerVar v)) = some irTy) : m.irType env.rt v = some irTy := by
  have hchecked := P.checked m hm
  obtain ⟨ctx₁, params, returnType, force, -, -, hrun, hkind⟩ := h.run
  obtain ⟨label, hlater⟩ := itemBlocks_later hchecked hrun
  obtain ⟨new, hvars, hnew⟩ := hlater.vars
  have hnone : new.lookup (lowerVar v) = none := by
    refine List.lookup_eq_none_iff.mpr fun e he => bne_iff_ne.mpr fun heq => ?_
    obtain ⟨k, hk, hle⟩ := hnew e he
    have hlt := htmp k (lowerVar_tmp (heq ▸ hk))
    have hle : m.tmpIdx ≤ k := hle
    omega
  have hplace : ¬((lowerVar v).kind = .context ∨ (lowerVar v).kind = .ret) := by
    obtain ⟨scope, kind⟩ := v
    cases kind <;> simp [lowerVar]
  have hlookup : ((itemVars env params m).lookup (lowerVar v)).map ValueOrSlot.irType =
      m.irType env.rt v := lookup_itemVars params v (hchecked.vars v)
  have hvars' : f.vars = itemVars env params m ++ new := by
    rw [h.vars, hvars]
    rfl
  simp only [AnyItem.type, operandType, h.param] at hv
  rw [if_neg hplace, hvars', List.lookup_append, hnone, Option.or_none, hlookup] at hv
  cases hir : m.irType env.rt v with
  | some t =>
    rw [hir] at hv
    exact hv
  | none =>
    rw [hir, Option.none_or] at hv
    obtain ⟨x, hx, hvar⟩ := paramTypes_explicit hv
    rcases hkind with ⟨-, hparams⟩ | ⟨g, sig, -, hty, hsig, hparams⟩
    · rw [hparams] at hx
      cases hx
    · rw [hparams] at hx
      obtain ⟨p, hp, hkind, hlower⟩ := mem_itemParameters (itemSignature_some hsig).1 hx
      obtain ⟨hmem, x', hx'⟩ := (hchecked.parameters params sig hty).2 p hp
      rw [hx'] at hkind
      have hx'' : x' = x := Mir.VarKind.explicit.inj hkind
      subst hx''
      have hvp : v = p.1 := by
        apply lowerVar_inj
        rw [hvar, hx']
        rfl
      rw [Item.irType, hvp, lookup_of_mem hchecked.vars hmem, Option.bind_some, hlower] at hir
      cases hir

/-! ### All items -/

/-- Items that are lowered one after the other. -/
structure ItemsRun (P : CheckedProgram env R uf) (ms : List Mir.Item) (ctx ctx' : LowerCtx)
    (fs : List AnyItem) : Prop where
  grows : ctx.Grows ctx'
  functions : (fs.filterMap AnyItem.asFunction).map Item.name =
    (ms.filter fun m => m.isFunction && m.inhabited env.rt).map fun m => .item m.name
  sound : ∀ f ∈ fs, ∃ m ∈ ms, ∃ ctx₁ s irParams, ItemRun env ctx₁ m f s irParams ∧
    ∃ scopes, (s.ctx scopes).Grows ctx'
  complete : ∀ m ∈ ms, m.inhabited env.rt → ∃ f ∈ fs, ∃ ctx₁ s irParams,
    ItemRun env ctx₁ m f s irParams ∧ ∃ scopes, (s.ctx scopes).Grows ctx'
  recorded : P.Callable → ∀ e ∈ ctx'.runtimeFunctions, e ∈ ctx.runtimeFunctions ∨ P.Records e.1 e.2

/-- What a generated function is lowered under: it only asks for functions of its kind. -/
def generatedSite (scope : ScopeRef) (sig : Signature) (kind : FunName → Prop) : Site where
  params := paramTypes scope sig.parameters
  explicit v _ h := by
    obtain ⟨x, -, rfl⟩ := paramTypes_explicit h
    exact ⟨x, rfl⟩
  items _ _ := False
  generated := kind
  runtime _ _ := False

/-- A function is generated, in a state that ends in `s`. -/
structure GeneratedRun (kind : FunName → Prop) (func : FunName) (ctx : LowerCtx) (f : Item)
    (s : Lowerer) : Prop where
  name : f.name = func
  signature : generatedSignature func = some f.irSignature
  vars : f.vars = s.vars
  instructions : f.blocks.flatMap Block.instructions = s.emitted
  scope : f.scope = ctx.scopes
  later : Later ctx.lowerer s
  gained : Gained (generatedSite ctx.scopes f.irSignature kind) ctx.lowerer s

theorem generateFunction_run {kind : FunName → Prop} {name : FunName} {sig : Signature}
    {body : ScopeRef → Lower Unit} {ctx ctx' : LowerCtx} {f : Item}
    (hsig : generatedSignature name = some sig)
    (hbody : Calls (generatedSite ctx.scopes sig kind) (Later ctx.lowerer) (body ctx.scopes) Any)
    (h : generateFunction name sig body ctx = some (f, ctx')) :
    ∃ s, GeneratedRun kind name ctx f s ∧ ctx' = s.ctx (ctx.scopes + 1) := by
  obtain ⟨⟨u, s⟩, hrun, h₁⟩ := Option.bind_eq_some_iff.mp h
  obtain ⟨rfl, rfl⟩ := Prod.mk.inj (Option.some.inj h₁)
  have hfresh : ctx.lowerer.Fresh := fun e he => nomatch he
  obtain ⟨hlater, -, hgained⟩ := hbody ctx.lowerer u s hfresh hrun
  refine ⟨s, ⟨rfl, hsig, rfl, instructions_of_allBlocks s, rfl, hlater, ?_⟩, rfl⟩
  exact (hgained (.refl _)).2

theorem persistent_later (s₀ : Lowerer) : Persistent (Later s₀) := fun _ _ hlater h => h.trans hlater

/-- A parameter of a generated function has its type. -/
theorem generated_param {scope : ScopeRef} {sig : Signature} {kind : FunName → Prop}
    {ctx : LowerCtx} {x : Identifier} {ty : IrType}
    (h : paramTypes scope sig.parameters ⟨scope, .explicit x⟩ = some ty) :
    ∀ s, Later ctx.lowerer s →
      s.type (generatedSite scope sig kind) (.place ⟨scope, .explicit x⟩) = some ty :=
  fun _ hlater => Later.type (s := ctx.lowerer) hlater h

/-- The functions that are generated for types in one way. -/
def Generated (name : Ty → FunName) (func : FunName) : Prop := ∃ ty, func = name ty

theorem paramTypes_val (scope : ScopeRef) :
    paramTypes scope [("val", .pointer)] ⟨scope, .explicit "val"⟩ = some .pointer := by
  simp [paramTypes]

theorem generateClone_run {ty : Ty} {ctx ctx' : LowerCtx} {f : Item}
    (h : generateClone rt ty ctx = some (f, ctx')) :
    ∃ s, GeneratedRun (Generated .generatedClone) (.generatedClone ty) ctx f s ∧
      ctx' = s.ctx (ctx.scopes + 1) := by
  refine generateFunction_run rfl ?_ h
  refine calls_generateCloneBody (persistent_later _) (fun ty => ⟨ty, rfl⟩) ?_
  exact generated_param (paramTypes_val _)

theorem generateDrop_run {ty : Ty} {ctx ctx' : LowerCtx} {f : Item}
    (h : generateDrop rt ty ctx = some (f, ctx')) :
    ∃ s, GeneratedRun (Generated .generatedDrop) (.generatedDrop ty) ctx f s ∧
      ctx' = s.ctx (ctx.scopes + 1) := by
  refine generateFunction_run rfl ?_ h
  refine calls_generateDropBody (persistent_later _) (fun ty => ⟨ty, rfl⟩) ?_
  exact generated_param (paramTypes_val _)

theorem generateEq_run {ty : Ty} {ctx ctx' : LowerCtx} {f : Item}
    (h : generateEq rt ty ctx = some (f, ctx')) :
    ∃ s, GeneratedRun (Generated .generatedEq) (.generatedEq ty) ctx f s ∧
      ctx' = s.ctx (ctx.scopes + 1) := by
  refine generateFunction_run rfl ?_ h
  refine calls_generateEqBody (persistent_later _) (fun ty => ⟨ty, rfl⟩) ?_ ?_
  · exact generated_param (by simp [paramTypes])
  · exact generated_param (by simp [paramTypes])

/-! ### Runs of the generators -/

/-- A worklist that generates the functions of one kind. -/
structure Generator (W : Worklist Ty Item LowerCtx) (name : Ty → FunName) : Prop where
  queue : ∀ ctx ty, ty ∈ W.queue ctx ↔ ctx.queued (name ty)
  rest : ∀ ctx, W.queue (W.rest ctx) = (W.queue ctx).tail
  rest_queued : ∀ ctx func, ¬ Generated name func → ((W.rest ctx).queued func ↔ ctx.queued func)
  rest_recorded : ∀ ctx, (W.rest ctx).runtimeFunctions = ctx.runtimeFunctions
  process : ∀ ty ctx f ctx', W.process ty ctx = some (f, ctx') →
    ∃ s, GeneratedRun (Generated name) (name ty) ctx f s ∧ ctx' = s.ctx (ctx.scopes + 1)

theorem generator_clones : Generator (cloneWork rt) .generatedClone where
  queue _ _ := .rfl
  rest _ := rfl
  rest_queued ctx func h := by
    cases func with
    | generatedClone ty => exact absurd ⟨ty, rfl⟩ h
    | _ => exact .rfl
  rest_recorded _ := rfl
  process _ _ _ _ := generateClone_run

theorem generator_drops : Generator (dropWork rt) .generatedDrop where
  queue _ _ := .rfl
  rest _ := rfl
  rest_queued ctx func h := by
    cases func with
    | generatedDrop ty => exact absurd ⟨ty, rfl⟩ h
    | _ => exact .rfl
  rest_recorded _ := rfl
  process _ _ _ _ := generateDrop_run

theorem generator_eqs : Generator (eqWork rt) .generatedEq where
  queue _ _ := .rfl
  rest _ := rfl
  rest_queued ctx func h := by
    cases func with
    | generatedEq ty => exact absurd ⟨ty, rfl⟩ h
    | _ => exact .rfl
  rest_recorded _ := rfl
  process _ _ _ _ := generateEq_run

/-- What the generation of functions of one kind leaves as it is. -/
structure Untouched (name : Ty → FunName) (ctx ctx' : LowerCtx) : Prop where
  queued : ∀ func, ¬ Generated name func → ctx.queued func → ctx'.queued func
  recorded : ∀ e, e ∈ ctx'.runtimeFunctions ↔ e ∈ ctx.runtimeFunctions

/-- All functions of one kind that were asked for, and those that these ask for. -/
structure GeneratedAll (name : Ty → FunName) (ctx ctx' : LowerCtx) (fs : List Item)
    (keys : List Ty) : Prop where
  nodup : keys.Nodup
  names : fs.map Item.name = keys.map name
  queued : ∀ ty, ctx.queued (name ty) → ty ∈ keys
  sound : ∀ f ∈ fs, ∃ ty ctx₁ s, GeneratedRun (Generated name) (name ty) ctx₁ f s ∧
    ∀ c, s.queued (name c) → c ∈ keys
  untouched : Untouched name ctx ctx'

theorem Generator.lawful {W : Worklist Ty Item LowerCtx} {name : Ty → FunName}
    (hW : Generator W name) : W.Lawful := by
  refine ⟨hW.rest, fun ty ctx f ctx' hrun c hc => ?_⟩
  obtain ⟨s, hgenerated, rfl⟩ := hW.process ty ctx f ctx' hrun
  refine (hW.queue _ c).mpr ((queued_ctx s _ _).mpr (hgenerated.later.queued _ ?_))
  exact (queued_lowerer ctx _).mpr ((hW.queue ctx c).mp hc)

theorem Generator.run {W : Worklist Ty Item LowerCtx} {name : Ty → FunName} (hW : Generator W name)
    {fuel : ℕ} {ctx ctx' : LowerCtx} {fs : List Item} (h : W.run fuel [] ctx = some (fs, ctx')) :
    ∃ keys, GeneratedAll name ctx ctx' fs keys := by
  obtain ⟨keys, hmakes, hqueue, hnodup, -⟩ := Worklist.run_makes hW.lawful h
  rw [List.nil_append] at hmakes hqueue
  have hruns : List.Forall₂ (fun ty f => ∃ ctx₁ s, GeneratedRun (Generated name) (name ty) ctx₁ f s ∧
      ∀ c, s.queued (name c) → c ∈ keys) keys fs := by
    refine hmakes.imp fun ty f hmake => ?_
    obtain ⟨ctx₁, ctx₂, hprocess, hkeys⟩ := hmake
    obtain ⟨s, hgenerated, rfl⟩ := hW.process ty ctx₁ f ctx₂ hprocess
    refine ⟨ctx₁, s, hgenerated, fun c hc => hkeys c ?_⟩
    exact (hW.queue _ c).mpr ((queued_ctx s _ _).mpr hc)
  refine ⟨keys, hnodup, ?_, fun ty hty => hqueue ty ((hW.queue ctx ty).mpr hty), ?_, ?_⟩
  · have hnames : List.Forall₂ (fun f ty => f = ty) (fs.map Item.name) (keys.map name) := by
      rw [List.forall₂_map_left_iff, List.forall₂_map_right_iff]
      refine (hruns.imp fun ty f hrun => ?_).flip
      obtain ⟨ctx₁, s, hgenerated, -⟩ := hrun
      exact hgenerated.name
    rw [List.forall₂_eq_eq_eq] at hnames
    exact hnames
  · intro f hf
    obtain ⟨ty, -, hrun⟩ := exists_of_forall₂ hruns hf
    exact ⟨ty, hrun⟩
  · refine Worklist.run_keeps (I := Untouched name ctx) ?_ ?_ h ⟨fun _ _ h => h, fun _ => .rfl⟩
    · intro ctx₁ hctx₁
      refine ⟨fun func hfunc hq => ?_, fun e => ?_⟩
      · exact (hW.rest_queued ctx₁ func hfunc).mpr (hctx₁.queued func hfunc hq)
      · rw [hW.rest_recorded]
        exact hctx₁.recorded e
    · intro ty ctx₁ f ctx₂ hprocess hctx₁
      obtain ⟨s, hgenerated, rfl⟩ := hW.process ty ctx₁ f ctx₂ hprocess
      refine ⟨fun func hfunc hq => ?_, fun e => ?_⟩
      · refine (queued_ctx s _ _).mpr (hgenerated.later.queued func ?_)
        exact (queued_lowerer ctx₁ func).mpr (hctx₁.queued func hfunc hq)
      · rw [← hctx₁.recorded e]
        constructor
        · intro he
          rcases hgenerated.gained.runtime e he with he | he
          · exact he
          · exact he.elim
        · exact fun he => hgenerated.later.runtimeFunctions he

/-! ### Whole programs -/

/-- The context of a program before anything is lowered. -/
def LowerCtx.new (labels scopes : ℕ) : LowerCtx := ⟨labels, scopes, [], [], [], []⟩

/-- A program is lowered: `fs` are its items and `gs` the generated functions, and `ctx` is the
context between the two. -/
structure ProgramRun (P : CheckedProgram env R uf) (L : LirProgram) (fs : List AnyItem)
    (gs : List Item) (ctx₀ ctx : LowerCtx) : Prop where
  functions : L.functions = gs.map .function ++ fs
  items : ItemsRun P P.items ctx₀ ctx fs
  nodup : (gs.map Item.name).Nodup
  generated : ∀ g ∈ gs, (∀ n, g.name ≠ .item n) ∧ ∃ name ctx₁ s,
    GeneratedRun (Generated name) g.name ctx₁ g s ∧
      ∀ func, Generated name func → s.queued func → func ∈ gs.map Item.name
  queued : ∀ func, ctx.queued func → func ∈ gs.map Item.name
  recorded : ∀ e, e ∈ L.runtimeFunctions ↔ e ∈ ctx.runtimeFunctions

end Roto.Lir
