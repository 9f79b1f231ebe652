import RotoCompiler.Lir.EmittedItems

/-!
# The calls of an item

An item is lowered under its own variables and parameters. What holds of its calls is kept in
the state that its lowering ends in.
-/

namespace Roto.Lir
open Mir

variable {env : LowerEnv}

/-! ### Types of variables -/

theorem isReferenceType_none {rt : Rt} {ty : Ty} (h : isReferenceType rt ty = none) :
    lowerType rt ty = none := by
  cases hl : layoutOf rt ty with
  | none =>
    unfold lowerType
    rw [hl, Option.any_none, if_neg Bool.false_ne_true]
    cases ty with
    | primitive p => cases hl
    | list t => cases hl
    | runtime id => cases hl
    | _ => simp [h]
  | some l =>
    by_cases hzero : l.size = 0
    · exact lowerType_zero hl hzero
    · rcases Sized.cases ⟨l, hl, Nat.pos_of_ne_zero hzero⟩ with ⟨p, irTy, rfl, hp⟩ | ⟨href, -⟩
      · rw [isReferenceType_scalar hp] at h
        cases h
      · rw [href] at h
        cases h

theorem isReferenceType_true {rt : Rt} {ty : Ty} (h : isReferenceType rt ty = some true) :
    ∃ l, layoutOf rt ty = some l ∧ lowerType rt ty = some .pointer := by
  cases hl : layoutOf rt ty with
  | none =>
    simp [isReferenceType, hl] at h
  | some l =>
    refine ⟨l, rfl, ?_⟩
    by_cases hzero : l.size = 0
    · rw [isReferenceType_zero hl hzero] at h
      cases h
    · rcases Sized.cases ⟨l, hl, Nat.pos_of_ne_zero hzero⟩ with ⟨p, irTy, rfl, hp⟩ | ⟨-, hlower⟩
      · rw [isReferenceType_scalar hp] at h
        cases h
      · exact hlower

theorem lowerVar_inj {v w : Mir.Var} (h : lowerVar v = lowerVar w) : v = w := by
  obtain ⟨scope, kind⟩ := v
  obtain ⟨scope', kind'⟩ := w
  obtain ⟨rfl, hkind⟩ := Var.mk.inj h
  cases kind <;> cases kind' <;> cases hkind <;> rfl

theorem lowerVar_tmp {v : Mir.Var} {k : ℕ} (h : (lowerVar v).kind = .tmp k) : v.kind = .tmp k := by
  obtain ⟨scope, kind⟩ := v
  cases kind <;> cases h
  rfl

/-- A variable is declared with the type that values of its type have. -/
theorem itemVar_type (params : List Mir.Var) (v : Mir.Var) (ty : Ty) :
    (itemVar env params v ty).map (fun p => (p.1, p.2.irType)) =
      (lowerType env.rt ty).map fun irTy => (lowerVar v, irTy) := by
  unfold itemVar
  split
  next href =>
    rw [isReferenceType_none href]
    rfl
  next href =>
    obtain ⟨l, hl, hlower⟩ := isReferenceType_true href
    rw [hlower, hl]
    split_ifs <;> rfl
  next => cases lowerType env.rt ty <;> rfl

theorem itemVar_key {params : List Mir.Var} {v : Mir.Var} {ty : Ty} {e : Var × ValueOrSlot}
    (h : itemVar env params v ty = some e) : e.1 = lowerVar v := by
  have htype := @itemVar_type env params v ty
  rw [h] at htype
  cases hlower : lowerType env.rt ty with
  | none =>
    rw [hlower] at htype
    cases htype
  | some irTy =>
    rw [hlower] at htype
    exact (Prod.mk.inj (Option.some.inj htype)).1

theorem mem_of_lookup {α β : Type} [DecidableEq α] {l : List (α × β)} {a : α} {b : β}
    (h : l.lookup a = some b) : (a, b) ∈ l := by
  obtain ⟨l₁, l₂, rfl, -⟩ := List.lookup_eq_some_iff.mp h
  exact List.mem_append_right _ List.mem_cons_self

theorem lookup_of_mem {α β : Type} [DecidableEq α] {l : List (α × β)}
    (h : ∀ a b c, (a, b) ∈ l → (a, c) ∈ l → b = c) {p : α × β} (hp : p ∈ l) :
    l.lookup p.1 = some p.2 := by
  cases hlookup : l.lookup p.1 with
  | none => exact absurd rfl (bne_iff_ne.mp (List.lookup_eq_none_iff.mp hlookup p hp))
  | some b => exact congrArg some (h p.1 b p.2 (mem_of_lookup hlookup) hp)

/-- The declarations of an item. -/
def itemVars (env : LowerEnv) (params : List Mir.Var) (item : Mir.Item) :
    List (Var × ValueOrSlot) :=
  item.vars.filterMap fun v => itemVar env params v.1 v.2

theorem lookup_itemVars (params : List Mir.Var) {vars : List (Mir.Var × Ty)} (v : Mir.Var)
    (h : ∀ t u, (v, t) ∈ vars → (v, u) ∈ vars → t = u) :
    ((vars.filterMap fun v => itemVar env params v.1 v.2).lookup (lowerVar v)).map
      ValueOrSlot.irType = (vars.lookup v).bind (lowerType env.rt) := by
  induction vars with
  | nil => rfl
  | cons p vars ih =>
    obtain ⟨w, t⟩ := p
    have htail := ih fun t u ht hu => h t u (List.mem_cons_of_mem _ ht) (List.mem_cons_of_mem _ hu)
    have htype := @itemVar_type env params w t
    rw [List.filterMap_cons, List.lookup_cons]
    by_cases hv : v = w
    · subst hv
      rw [beq_self_eq_true]
      cases hlower : lowerType env.rt t with
      | none =>
        rw [hlower] at htype
        rw [Option.map_eq_none_iff.mp htype]
        refine htail.trans ?_
        cases hlookup : vars.lookup v with
        | none => exact hlower.symm
        | some u =>
          have hmem := List.mem_cons_of_mem (v, t) (mem_of_lookup hlookup)
          obtain rfl := h t u List.mem_cons_self hmem
          rfl
      | some irTy =>
        rw [hlower] at htype
        obtain ⟨⟨x, slot⟩, hitem, heq⟩ := Option.map_eq_some_iff.mp htype
        obtain ⟨rfl, rfl⟩ := Prod.mk.inj heq
        rw [hitem, List.lookup_cons, beq_self_eq_true]
        exact hlower.symm
    · rw [beq_false_of_ne hv]
      cases hitem : itemVar env params w t with
      | none => exact htail
      | some p =>
        have hne : lowerVar v ≠ p.1 := fun heq => hv (lowerVar_inj (heq.trans (itemVar_key hitem)))
        rw [List.lookup_cons, beq_false_of_ne hne]
        exact htail

theorem paramTypes_explicit {scope : ScopeRef} {params : List (Identifier × IrType)} {v : Var}
    {ty : IrType} (h : paramTypes scope params v = some ty) :
    ∃ x, (x, ty) ∈ params ∧ v = ⟨scope, .explicit x⟩ := by
  obtain ⟨p, hp, rfl⟩ := Option.map_eq_some_iff.mp h
  have hv := List.find?_some hp
  exact ⟨p.1, List.mem_of_find?_eq_some hp, of_decide_eq_true hv⟩

/-- A variable of an item has the type that it is declared with. -/
theorem type_of_irType {S : Site} {item : Mir.Item} {params : List Mir.Var} {s : Lowerer}
    (hvars : s.vars = itemVars env params item)
    (h : ∀ v t u, (v, t) ∈ item.vars → (v, u) ∈ item.vars → t = u) {v : Mir.Var} {irTy : IrType}
    (hv : item.irType env.rt v = some irTy) : s.type S (.place (lowerVar v)) = some irTy := by
  have hlookup : ((itemVars env params item).lookup (lowerVar v)).map ValueOrSlot.irType =
      some irTy := (lookup_itemVars params v (h v)).trans hv
  have hkind : ¬((lowerVar v).kind = .context ∨ (lowerVar v).kind = .ret) := by
    obtain ⟨scope, kind⟩ := v
    cases kind <;> simp [lowerVar]
  simp only [Lowerer.type, operandType, hvars]
  rw [if_neg hkind, hlookup]
  rfl

/-! ### What an item relies on -/

variable {R : Value.Registry} {uf : TypeChecker.UnionFind} (P : CheckedProgram env R uf)

/-- The signatures that functions are called with. -/
def CheckedProgram.Signatures (name : Identifier) (sig : Signature) : Prop :=
  ∃ item ∈ P.items, item.inhabited env.rt ∧ ∃ dest ty func args mirSignature,
    .assign dest ty (.call func args mirSignature) ∈ item.instructions ∧
      env.fullName func = name ∧ callSignature env.rt mirSignature = sig

/-- The signatures that are recorded for registered functions. -/
def CheckedProgram.Records (func : ℕ) (sig : Signature) : Prop :=
  ∃ item ∈ P.items, item.inhabited env.rt ∧ ∃ dest ty args vtables mirSignature,
    .assign dest ty (.callRuntime func args vtables mirSignature) ∈ item.instructions ∧
      sig.parameters.map (·.2) =
        runtimeTypes env.rt (env.dynVals func) vtables.length mirSignature.parameterTypes

/-- What an item is lowered under. -/
def CheckedProgram.site (scope : ScopeRef) (params : List (Identifier × IrType)) : Site where
  params := paramTypes scope params
  explicit v _ h := by
    obtain ⟨x, -, rfl⟩ := paramTypes_explicit h
    exact ⟨x, rfl⟩
  items := P.Signatures
  generated _ := True
  runtime := P.Records

variable {P}

/-- The arguments of a call have the types of its signature wherever variables have those that
they are declared with. -/
theorem CheckedProgram.passed_types (P : CheckedProgram env R uf) {S : Site} {item : Mir.Item}
    (hitem : item ∈ P.items) {s : Lowerer} {dest : Place} {ty : Ty} {func : ResolvedName}
    {args : List Mir.Var} {sig : Mir.Signature}
    (hi : .assign dest ty (.call func args sig) ∈ item.instructions)
    (hs : ∀ v irTy, item.irType env.rt v = some irTy →
      s.type S (.place (lowerVar v)) = some irTy) :
    (passedArgs env (args.zip sig.parameterTypes)).map (s.type S) =
      (sig.parameterTypes.filterMap (lowerType env.rt)).map some := by
  have hchecked := P.checked item hitem
  obtain ⟨-, hlen, hargs⟩ := hchecked.calls dest ty func args sig hi
  refine passedArgs_types hlen fun p hp irTy hirTy => hs p.1 irTy ?_
  rw [Item.irType, lookup_of_mem hchecked.vars (hargs p hp)]
  exact hirTy

theorem CheckedProgram.Callable.relies (h : P.Callable) {item : Mir.Item} (hitem : item ∈ P.items)
    (hin : item.inhabited env.rt) {params : List Mir.Var} {scope : ScopeRef}
    {irParams : List (Identifier × IrType)} {s₀ : Lowerer}
    (hvars : s₀.vars = itemVars env params item) {i : Mir.Instruction}
    (hi : i ∈ item.instructions) : Relies (P.site scope irParams) env (Later s₀) i where
  persistent := fun s s' hlater hs => hs.trans hlater
  generated := fun _ => trivial
  calls := by
    intro dest ty func args sig heq s hs
    subst heq
    exact ⟨⟨item, hitem, hin, dest, ty, func, args, sig, hi, rfl, rfl⟩,
      P.passed_types hitem hi fun v irTy hv =>
        hs.type (type_of_irType hvars (P.checked item hitem).vars hv)⟩
  runtimeCalls := by
    intro dest ty func args vtables sig heq
    subst heq
    obtain ⟨⟨-, -, c, rfl, rfl, rfl⟩, -⟩ :=
      (P.checked item hitem).runtimeCalls dest ty func args vtables sig hi
    exact ⟨c.length_args, fun irSig hirSig =>
      ⟨item, hitem, hin, dest, ty, c.args, c.vtables, c.mirSignature, hi, hirSig⟩⟩
  handedOver := by
    intro p hp s hs
    have hdeclared := h.declared item hitem hin i hi p hp
    exact hs.type (type_of_irType hvars (P.checked item hitem).vars hdeclared)

/-! ### Runs -/

theorem itemLowerer_fresh {registered : ℕ → RuntimeFunction} {items : List Mir.Item}
    {item : Mir.Item} (hchecked : CheckedItem env R uf registered items item) (ctx : LowerCtx)
    (label : LabelRef) (params : List Mir.Var) :
    (ctx.itemLowerer item label (itemVars env params item)).Fresh := by
  intro e he k hk
  obtain ⟨p, hp, heq⟩ := List.mem_filterMap.mp he
  rw [itemVar_key heq] at hk
  exact hchecked.tmps p hp k (lowerVar_tmp hk)

theorem itemBlocks_some {ctx : LowerCtx} {item : Mir.Item} {params : List Mir.Var} {returnType : Ty}
    {forceReferenceReturn : Bool} {s : Lowerer}
    (h : itemBlocks env ctx item params returnType forceReferenceReturn = some s) :
    ∃ b bs s₁, item.blocks = b :: bs ∧
      instructions env returnType forceReferenceReturn b.instructions
        (ctx.itemLowerer item b.label (itemVars env params item)) = some ((), s₁) ∧
      blocks env returnType forceReferenceReturn bs s₁ = some ((), s) := by
  unfold itemBlocks at h
  split at h
  · cases h
  · next b bs heq =>
    obtain ⟨⟨u, s'⟩, hrun, rfl⟩ := Option.map_eq_some_iff.mp h
    obtain ⟨u₁, s₁, hfirst, hrest⟩ := Lower.bind_some hrun
    exact ⟨b, bs, s₁, heq, hfirst, hrest⟩

/-- All that the blocks of an item emit is accounted for. -/
theorem itemBlocks_calls {S : Site} {ctx : LowerCtx} {item : Mir.Item} {params : List Mir.Var}
    {returnType : Ty} {forceReferenceReturn : Bool} {s : Lowerer}
    {registered : ℕ → RuntimeFunction} {items : List Mir.Item}
    (hchecked : CheckedItem env R uf registered items item)
    (h : itemBlocks env ctx item params returnType forceReferenceReturn = some s)
    (hrelies : ∀ label, ∀ i ∈ item.instructions,
      Relies S env (Later (ctx.itemLowerer item label (itemVars env params item))) i) :
    ∃ label, Later (ctx.itemLowerer item label (itemVars env params item)) s ∧
      Gained S (ctx.itemLowerer item label (itemVars env params item)) s := by
  obtain ⟨b, bs, s₁, hblocks, hfirst, hrest⟩ := itemBlocks_some h
  have hi : ∀ c ∈ b :: bs, ∀ i ∈ c.instructions, i ∈ item.instructions := by
    intro c hc i hi
    refine List.mem_flatMap.mpr ⟨c, ?_, hi⟩
    rw [hblocks]
    exact hc
  let s₀ := ctx.itemLowerer item b.label (itemVars env params item)
  have hpre : Persistent (Later s₀) := fun s s' hlater hs => hs.trans hlater
  have hbody : Calls S (Later s₀)
      (instructions env returnType forceReferenceReturn b.instructions) Any :=
    calls_instructions hpre fun i hmem => hrelies b.label i (hi b List.mem_cons_self i hmem)
  have hothers : Calls S (Later s₀) (blocks env returnType forceReferenceReturn bs) Any :=
    calls_blocks hpre fun c hc i hmem =>
      hrelies b.label i (hi c (List.mem_cons_of_mem _ hc) i hmem)
  obtain ⟨hlater₁, hfresh₁, hgained₁⟩ :=
    hbody s₀ () s₁ (itemLowerer_fresh hchecked ctx b.label params) hfirst
  obtain ⟨hlater₂, -, hgained₂⟩ := hothers s₁ () s hfresh₁ hrest
  exact ⟨b.label, hlater₁.trans hlater₂,
    (hgained₁ (.refl s₀)).2.trans hlater₂ (hgained₂ hlater₁).2⟩

/-! ### Steps of a run -/

/-- Where nothing is asked for. -/
def anySite : Site where
  params _ := none
  explicit _ _ h := nomatch h
  items _ _ := True
  generated _ := True
  runtime _ _ := True

/-- A computation that leads to a later state, whatever it relies on. -/
abbrev Advances {α : Type} (m : Lower α) : Prop := Calls anySite (fun _ => False) m Any

theorem Advances.later {α : Type} {m : Lower α} {a : α} {s s' : Lowerer} (h : Advances m)
    (hs : s.Fresh) (hrun : m s = some (a, s')) : Later s s' ∧ s'.Fresh :=
  (h s a s' hs hrun).imp_right And.left

theorem CheckedItem.advances {registered : ℕ → RuntimeFunction} {items : List Mir.Item}
    {item : Mir.Item} (hchecked : CheckedItem env R uf registered items item) :
    ∀ i ∈ item.instructions, Relies anySite env (fun _ => False) i := by
  intro i hi
  refine ⟨fun _ _ _ h => h, fun _ => trivial, fun _ _ _ _ _ _ _ h => h.elim, ?_,
    fun _ _ _ h => h.elim⟩
  intro dest ty func args vtables sig heq
  subst heq
  obtain ⟨⟨-, -, c, rfl, rfl, rfl⟩, -⟩ := hchecked.runtimeCalls dest ty func args vtables sig hi
  exact ⟨c.length_args, fun _ _ => trivial⟩

/-- An instruction among others is lowered at some time. -/
theorem instructions_step {returnType : Ty} {forceReferenceReturn : Bool}
    {is : List Mir.Instruction} {s s' : Lowerer}
    (hadvances : ∀ i ∈ is, Relies anySite env (fun _ => False) i) (hs : s.Fresh)
    (h : instructions env returnType forceReferenceReturn is s = some ((), s'))
    {i : Mir.Instruction} (hi : i ∈ is) :
    ∃ s₁ s₂, Later s s₁ ∧ s₁.Fresh ∧
      instruction env returnType forceReferenceReturn i s₁ = some ((), s₂) ∧ Later s₂ s' := by
  induction is generalizing s with
  | nil => cases hi
  | cons j is ih =>
    have htail : ∀ k ∈ is, Relies anySite env (fun _ => False) k :=
      fun k hk => hadvances k (List.mem_cons_of_mem _ hk)
    obtain ⟨u, s₁, hfirst, hrest⟩ := Lower.bind_some h
    have hstep : Advances (instruction env returnType forceReferenceReturn j) :=
      calls_instruction (hadvances j List.mem_cons_self)
    have hsteps : Advances (instructions env returnType forceReferenceReturn is) :=
      calls_instructions (fun _ _ _ h => h) htail
    obtain ⟨hlater, hs₁⟩ := hstep.later hs hfirst
    rcases List.mem_cons.mp hi with rfl | hi
    · exact ⟨s, s₁, .refl s, hs, hfirst, (hsteps.later hs₁ hrest).1⟩
    · obtain ⟨s₂, s₃, h₁, h₂, h₃, h₄⟩ := ih htail hs₁ hrest hi
      exact ⟨s₂, s₃, hlater.trans h₁, h₂, h₃, h₄⟩

theorem blocks_step {returnType : Ty} {forceReferenceReturn : Bool} {bs : List Mir.Block}
    {s s' : Lowerer}
    (hadvances : ∀ b ∈ bs, ∀ i ∈ b.instructions, Relies anySite env (fun _ => False) i)
    (hs : s.Fresh) (h : blocks env returnType forceReferenceReturn bs s = some ((), s'))
    {b : Mir.Block} (hb : b ∈ bs) {i : Mir.Instruction} (hi : i ∈ b.instructions) :
    ∃ s₁ s₂, Later s s₁ ∧ s₁.Fresh ∧
      instruction env returnType forceReferenceReturn i s₁ = some ((), s₂) ∧ Later s₂ s' := by
  induction bs generalizing s with
  | nil => cases hb
  | cons c bs ih =>
    have htail : ∀ b ∈ bs, ∀ i ∈ b.instructions, Relies anySite env (fun _ => False) i :=
      fun b hb => hadvances b (List.mem_cons_of_mem _ hb)
    obtain ⟨u, s₁, hnew, hblocks⟩ := Lower.bind_some h
    obtain ⟨u', s₂, hfirst, hrest⟩ := Lower.bind_some hblocks
    have hblock : Advances (newBlock c.label) := calls_newBlock c.label
    have hstep : Advances (instructions env returnType forceReferenceReturn c.instructions) :=
      calls_instructions (fun _ _ _ h => h) (hadvances c List.mem_cons_self)
    have hsteps : Advances (blocks env returnType forceReferenceReturn bs) :=
      calls_blocks (fun _ _ _ h => h) htail
    obtain ⟨hlater₁, hs₁⟩ := hblock.later hs hnew
    obtain ⟨hlater₂, hs₂⟩ := hstep.later hs₁ hfirst
    rcases List.mem_cons.mp hb with rfl | hb
    · obtain ⟨s₃, s₄, h₁, h₂, h₃, h₄⟩ :=
        instructions_step (hadvances b List.mem_cons_self) hs₁ hfirst hi
      exact ⟨s₃, s₄, hlater₁.trans h₁, h₂, h₃, h₄.trans (hsteps.later hs₂ hrest).1⟩
    · obtain ⟨s₃, s₄, h₁, h₂, h₃, h₄⟩ := ih htail hs₂ hrest hb
      exact ⟨s₃, s₄, (hlater₁.trans hlater₂).trans h₁, h₂, h₃, h₄⟩

theorem itemBlocks_later {ctx : LowerCtx} {item : Mir.Item} {params : List Mir.Var}
    {returnType : Ty} {forceReferenceReturn : Bool} {s : Lowerer}
    {registered : ℕ → RuntimeFunction} {items : List Mir.Item}
    (hchecked : CheckedItem env R uf registered items item)
    (h : itemBlocks env ctx item params returnType forceReferenceReturn = some s) :
    ∃ label, Later (ctx.itemLowerer item label (itemVars env params item)) s := by
  obtain ⟨b, bs, s₁, hblocks, hfirst, hrest⟩ := itemBlocks_some h
  have hadvances : ∀ c ∈ b :: bs, ∀ i ∈ c.instructions, Relies anySite env (fun _ => False) i := by
    intro c hc i hi
    refine hchecked.advances i (List.mem_flatMap.mpr ⟨c, ?_, hi⟩)
    rw [hblocks]
    exact hc
  have hbody : Advances (instructions env returnType forceReferenceReturn b.instructions) :=
    calls_instructions (fun _ _ _ h => h) (hadvances b List.mem_cons_self)
  have hothers : Advances (blocks env returnType forceReferenceReturn bs) :=
    calls_blocks (fun _ _ _ h => h) fun c hc => hadvances c (List.mem_cons_of_mem _ hc)
  obtain ⟨hlater, hs₁⟩ := hbody.later (itemLowerer_fresh hchecked ctx b.label params) hfirst
  exact ⟨b.label, hlater.trans (hothers.later hs₁ hrest).1⟩

theorem itemBlocks_step {ctx : LowerCtx} {item : Mir.Item} {params : List Mir.Var}
    {returnType : Ty} {forceReferenceReturn : Bool} {s : Lowerer}
    {registered : ℕ → RuntimeFunction} {items : List Mir.Item}
    (hchecked : CheckedItem env R uf registered items item)
    (h : itemBlocks env ctx item params returnType forceReferenceReturn = some s)
    {i : Mir.Instruction} (hi : i ∈ item.instructions) :
    ∃ s₁ s₂, s₁.Fresh ∧ instruction env returnType forceReferenceReturn i s₁ = some ((), s₂) ∧
      Later s₂ s := by
  obtain ⟨b, bs, s₁, hblocks, hfirst, hrest⟩ := itemBlocks_some h
  have hmem : ∀ c ∈ b :: bs, ∀ i ∈ c.instructions, i ∈ item.instructions := by
    intro c hc i hi
    refine List.mem_flatMap.mpr ⟨c, ?_, hi⟩
    rw [hblocks]
    exact hc
  have hhead : ∀ i ∈ b.instructions, Relies anySite env (fun _ => False) i :=
    fun i hi => hchecked.advances i (hmem b List.mem_cons_self i hi)
  have htail : ∀ c ∈ bs, ∀ i ∈ c.instructions, Relies anySite env (fun _ => False) i :=
    fun c hc i hi => hchecked.advances i (hmem c (List.mem_cons_of_mem _ hc) i hi)
  have hs := itemLowerer_fresh hchecked ctx b.label params
  have hbody : Advances (instructions env returnType forceReferenceReturn b.instructions) :=
    calls_instructions (fun _ _ _ h => h) hhead
  have hothers : Advances (blocks env returnType forceReferenceReturn bs) :=
    calls_blocks (fun _ _ _ h => h) htail
  obtain ⟨-, hs₁⟩ := hbody.later hs hfirst
  obtain ⟨c, hc, hi⟩ := List.mem_flatMap.mp hi
  rw [hblocks] at hc
  rcases List.mem_cons.mp hc with rfl | hc
  · obtain ⟨s₂, s₃, -, h₂, h₃, h₄⟩ := instructions_step hhead hs hfirst hi
    exact ⟨s₂, s₃, h₂, h₃, h₄.trans (hothers.later hs₁ hrest).1⟩
  · obtain ⟨s₂, s₃, -, h₂, h₃, h₄⟩ := blocks_step htail hs₁ hrest hc hi
    exact ⟨s₂, s₃, h₂, h₃, h₄⟩

end Roto.Lir
