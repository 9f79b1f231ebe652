import RotoCompiler.Lir.ClosedCalls

/-!
# The calls of a program

When every call of the program is of a function that is there, and passes what its signature
asks for.
-/

namespace Roto.Lir
open Mir TypeChecker Roto.Value

variable {env : LowerEnv} {R : Registry} {uf : UnionFind}

/-! ### Calls of one registered function -/

theorem Means.primitive_type {p : Primitive} {t : Typ} {ty : Ty} (h : Means R uf (.primitive p) t)
    (hc : ConvertsTo R.types uf t ty) : ty = .primitive p := by
  cases h with
  | primitive hr hp => exact hc.primitive hr hp
  | registered hτ _ _ => cases hτ

/-- Arguments that stand for one Rust type are passed with one type. -/
theorem lowerType_of_means {τ : RustTy} {t u : Typ} {ty ty' : Ty} (rt : Rt) (h : Means R uf τ t)
    (h' : Means R uf τ u) (hsame : t = u ∨ RustTy.registered τ = none)
    (hc : ConvertsTo R.types uf t ty) (hc' : ConvertsTo R.types uf u ty') :
    lowerType rt ty = lowerType rt ty' := by
  cases hreg : RustTy.registered τ with
  | none =>
    rcases h.shape rt hc with ⟨rfl, rfl⟩ | ⟨p, rfl, rfl⟩ | ⟨id, hid⟩ | ⟨hτ, -, hty, -⟩
    · obtain rfl : ty' = .unit := by
        rcases h'.shape rt hc' with ⟨-, rfl⟩ | ⟨p, hp, -⟩ | ⟨id, hid⟩ | ⟨hτ, -⟩
        · rfl
        · cases hp
        · cases hid
        · cases hτ
      rfl
    · rw [h'.primitive_type hc']
    · rw [hreg] at hid
      cases hid
    · rcases h'.shape rt hc' with ⟨rfl, -⟩ | ⟨p, rfl, rfl⟩ | ⟨id, hid⟩ | ⟨-, -, hty', -⟩
      · cases hτ
      · rw [h.primitive_type hc]
      · rw [hreg] at hid
        cases hid
      · rw [hty, hty']
  | some id =>
    obtain rfl := hsame.resolve_right (by rw [hreg]; exact Option.some_ne_none _)
    cases h with
    | @registered _ _ _ n args hτ hr hd =>
      obtain ⟨d, hn⟩ := hc.declared hr
      rw [hτ] at hreg
      obtain rfl := Option.some.inj hreg
      rcases hd d hn with ⟨m, rfl⟩ | ⟨p, rfl⟩ | ⟨tn, rfl⟩
      · rw [hc.runtime hr hn, hc'.runtime hr hn]
      · rw [hc.primitiveName hr hn, hc'.primitiveName hr hn]
      · obtain ⟨inner, rfl⟩ := hc.list hr hn
        obtain ⟨inner', rfl⟩ := hc'.list hr hn
        rw [lowerType_list, lowerType_list]
    | _ => cases hreg

theorem zip_forall₂ {α β γ δ : Type} {r : α → β → Prop} {p : β → γ → Prop} {q : β → δ → Prop}
    {motive : α → γ → δ → Prop} (h : ∀ a b c d, r a b → p b c → q b d → motive a c d) {as : List α}
    {bs : List β} {cs : List γ} {ds : List δ} (hr : List.Forall₂ r as bs)
    (hp : List.Forall₂ p bs cs) (hq : List.Forall₂ q bs ds) :
    ∀ x ∈ as.zip (cs.zip ds), motive x.1 x.2.1 x.2.2 := by
  induction hr generalizing cs ds with
  | nil =>
    intro x hx
    rw [List.zip_nil_left] at hx
    cases hx
  | cons hab _ ih =>
    obtain ⟨c, cs, hbc, hcs, rfl⟩ := List.forall₂_cons_left_iff.mp hp
    obtain ⟨d, ds, hbd, hds, rfl⟩ := List.forall₂_cons_left_iff.mp hq
    intro x hx
    rw [List.zip_cons_cons, List.zip_cons_cons] at hx
    rcases List.mem_cons.mp hx with rfl | hx
    · exact h _ _ _ _ hab hbc hbd
    · exact ih hcs hds x hx

/-- Two calls of a function pass the same types, apart from their `DynVal`s. -/
theorem RuntimeCall.same_types {f : RuntimeFunction} (hf : Registered R f) (c c' : RuntimeCall R uf f)
    (rt : Rt) :
    ∀ p ∈ f.dynVals.zip (c.mirSignature.parameterTypes.zip c'.mirSignature.parameterTypes),
      p.1 = true ∨ lowerType rt p.2.1 = lowerType rt p.2.2 := by
  have hboth : ∀ x ∈ f.parameterTypes.zip
      (c.mirSignature.parameterTypes.zip c'.mirSignature.parameterTypes),
      x.1 = .dynVal ∨ lowerType rt x.2.1 = lowerType rt x.2.2 := by
    have hconverted := c.converted
    have hconverted' := c'.converted
    cases hf with
    | @inferred rust rustReturn params ret hparams _ =>
      refine zip_forall₂ (motive := fun τ ty ty' => τ = .dynVal ∨ lowerType rt ty = lowerType rt ty')
        ?_ (forall₂_of_mapM hparams) hconverted hconverted'
      intro τ t ty ty' hτ hty hty'
      have hmeans : Means R uf τ t := (means_of_rust hτ).1
      exact .inr (lowerType_of_means rt hmeans hmeans (.inl rfl) hty hty')
    | generic hf =>
      obtain ⟨⟨ps, hps⟩, ⟨-, hnil⟩ | ⟨-, hall⟩⟩ := generic_parameters hf
      · rw [hnil] at hconverted
        rw [List.forall₂_nil_left_iff.mp hconverted, List.zip_nil_left, List.zip_nil_right]
        exact fun x hx => nomatch hx
      · refine zip_forall₂ (motive := fun τ ty ty' => τ = .dynVal ∨ lowerType rt ty = lowerType rt ty')
          ?_ hall hconverted hconverted'
        have hname : ∀ (n : ResolvedName) (args : List Typ) (σ : List Typ),
            (Typ.name n args).substituteMany (f.signature.types.zip σ) =
              .name n (args.map fun a => a.substituteMany (f.signature.types.zip σ)) := by
          intro n args σ
          rw [hps]
          exact substituteMany_name _ _ _ _
        rintro τ t ty ty' (h | ⟨rfl, a, rfl⟩ | ⟨p, rfl, rfl⟩) hty hty'
        · exact .inl h
        · have hmeans : ∀ σ, Means R uf .erasedList
              ((Typ.list a).substituteMany (f.signature.types.zip σ)) := by
            intro σ
            rw [show Typ.list a = .name ⟨0, "List"⟩ [a] from rfl, hname]
            exact .erasedList (resolves_name uf _ _)
          exact .inr (lowerType_of_means rt (hmeans _) (hmeans _) (.inr rfl) hty hty')
        · have hmeans : ∀ σ, Means R uf (.primitive p)
              ((Typ.named p.ident []).substituteMany (f.signature.types.zip σ)) := by
            intro σ
            rw [show Typ.named p.ident [] = .name ⟨0, p.ident⟩ [] from rfl, hname]
            exact .primitive (resolves_name uf _ _) rfl
          exact .inr (lowerType_of_means rt (hmeans _) (hmeans _) (.inr rfl) hty hty')
  intro p hp
  rw [RuntimeFunction.dynVals, List.zip_map_left] at hp
  obtain ⟨x, hx, rfl⟩ := List.mem_map.mp hp
  exact (hboth x hx).imp_left fun h => decide_eq_true h

/-- A function takes at most one `DynVal`. -/
theorem Registered.count_dynVals {f : RuntimeFunction} (hf : Registered R f) :
    f.dynVals.count true ≤ 1 := by
  cases hf with
  | @inferred rust rustReturn params ret hparams _ =>
    have hnone : RuntimeFunction.dynVals ⟨rust, rustReturn, ⟨[], params, ret⟩, []⟩ =
        List.replicate rust.length false := by
      have hne : ∀ τ ∈ rust, τ ≠ .dynVal := by
        intro τ hτ heq
        obtain ⟨t, -, ht⟩ := exists_of_forall₂ (forall₂_of_mapM hparams).flip hτ
        rw [heq] at ht
        cases ht
      refine List.eq_replicate_iff.mpr ⟨List.length_map .., fun b hb => ?_⟩
      obtain ⟨τ, hτ, rfl⟩ := List.mem_map.mp hb
      exact decide_eq_false (hne τ hτ)
    rw [hnone, List.count_replicate]
    simp
  | generic hf =>
    simp only [listFunctions, List.mem_cons, List.not_mem_nil, or_false] at hf
    rcases hf with rfl | rfl | rfl | rfl | rfl | rfl | rfl | rfl | rfl | rfl | rfl
    all_goals decide

/-- Calls pass the same types if their `DynVal`s agree on having values. -/
theorem runtimeTypes_congr {rt : Rt} {dynVals : List Bool} {tys tys' : List Ty}
    (hlen : tys.length = tys'.length)
    (h : ∀ p ∈ dynVals.zip (tys.zip tys'), p.1 = true ∧
        (layoutOf rt p.2.1).isSome = (layoutOf rt p.2.2).isSome ∨
      p.1 = false ∧ lowerType rt p.2.1 = lowerType rt p.2.2) :
    ((dynVals.zip tys).filterMap fun p => runtimeType rt p.1 p.2) =
      (dynVals.zip tys').filterMap fun p => runtimeType rt p.1 p.2 := by
  induction dynVals generalizing tys tys' with
  | nil => rfl
  | cons dynVal dynVals ih =>
    cases tys with
    | nil =>
      have hnil := List.length_eq_zero_iff.mp hlen.symm
      rw [hnil]
    | cons ty tys =>
      obtain ⟨ty', tys', rfl⟩ := List.exists_cons_of_length_eq_add_one hlen.symm
      have htail := ih (Nat.succ.inj hlen) fun p hp => h p (List.mem_cons_of_mem _ hp)
      have hhead : runtimeType rt dynVal ty = runtimeType rt dynVal ty' := by
        rcases h (dynVal, ty, ty') List.mem_cons_self with ⟨htrue, hsome⟩ | ⟨hfalse, hsame⟩
        · obtain rfl : dynVal = true := htrue
          have hsome : (layoutOf rt ty).isSome = (layoutOf rt ty').isSome := hsome
          rw [runtimeType, runtimeType]
          cases hl : layoutOf rt ty <;> cases hl' : layoutOf rt ty' <;> simp [hl, hl'] at hsome ⊢
        · obtain rfl : dynVal = false := hfalse
          exact hsame
      rw [List.zip_cons_cons, List.zip_cons_cons, List.filterMap_cons, List.filterMap_cons,
        hhead, htail]

/-- Calls that pass as many arguments have the same `DynVal`. -/
theorem dynVals_agree {rt : Rt} {dynVals : List Bool} {tys tys' : List Ty}
    (hlen : tys.length = tys'.length) (hcount : dynVals.count true ≤ 1)
    (hsame : ∀ p ∈ dynVals.zip (tys.zip tys'),
      p.1 = true ∨ lowerType rt p.2.1 = lowerType rt p.2.2)
    (h : ((dynVals.zip tys).filterMap fun p => runtimeType rt p.1 p.2).length =
      ((dynVals.zip tys').filterMap fun p => runtimeType rt p.1 p.2).length) :
    ∀ p ∈ dynVals.zip (tys.zip tys'), p.1 = true →
      (layoutOf rt p.2.1).isSome = (layoutOf rt p.2.2).isSome := by
  induction dynVals generalizing tys tys' with
  | nil =>
    intro p hp
    rw [List.zip_nil_left] at hp
    cases hp
  | cons dynVal dynVals ih =>
    cases tys with
    | nil =>
      intro p hp
      rw [List.zip_nil_left, List.zip_nil_right] at hp
      cases hp
    | cons ty tys =>
      obtain ⟨ty', tys', rfl⟩ := List.exists_cons_of_length_eq_add_one hlen.symm
      have hlen' : tys.length = tys'.length := Nat.succ.inj hlen
      have hsame' : ∀ p ∈ dynVals.zip (tys.zip tys'),
          p.1 = true ∨ lowerType rt p.2.1 = lowerType rt p.2.2 :=
        fun p hp => hsame p (List.mem_cons_of_mem _ hp)
      rw [List.zip_cons_cons, List.zip_cons_cons, List.filterMap_cons, List.filterMap_cons] at h
      cases dynVal with
      | true =>
        have hzero : true ∉ dynVals := by
          rw [List.count_cons_self] at hcount
          exact List.count_eq_zero.mp (by omega)
        have hnot : ∀ p ∈ dynVals.zip (tys.zip tys'), p.1 ≠ true := by
          intro p hp heq
          exact hzero (heq ▸ (List.of_mem_zip hp).1)
        have htail := runtimeTypes_congr hlen' fun p hp =>
          .inr ⟨Bool.eq_false_iff.mpr (hnot p hp), (hsame' p hp).resolve_left (hnot p hp)⟩
        rw [htail] at h
        intro p hp htrue
        rcases List.mem_cons.mp hp with rfl | hp
        · show (layoutOf rt ty).isSome = (layoutOf rt ty').isSome
          simp only [runtimeType] at h
          cases hl : layoutOf rt ty <;> cases hl' : layoutOf rt ty' <;> simp [hl, hl'] at h ⊢
        · exact absurd htrue (hnot p hp)
      | false =>
        have hhead : lowerType rt ty = lowerType rt ty' := by
          have hfalse := hsame (false, ty, ty') List.mem_cons_self
          exact hfalse.resolve_left Bool.false_ne_true
        have hlens : ((dynVals.zip tys).filterMap fun p => runtimeType rt p.1 p.2).length =
            ((dynVals.zip tys').filterMap fun p => runtimeType rt p.1 p.2).length := by
          simp only [runtimeType, Bool.false_eq_true, if_false, hhead] at h
          cases hty : lowerType rt ty' with
          | none => simpa [hty, runtimeType] using h
          | some t => simpa [hty, runtimeType] using h
        intro p hp htrue
        rcases List.mem_cons.mp hp with rfl | hp
        · cases htrue
        · refine ih hlen' ?_ hsame' hlens p hp htrue
          rw [List.count_cons_of_ne Bool.false_ne_true] at hcount
          exact hcount

/-- Calls of one function pass the same types if and only if their `DynVal`s agree on having
values, for which it is enough that they pass as many. -/
theorem RuntimeCall.types_eq {f : RuntimeFunction} (hf : Registered R f) (c c' : RuntimeCall R uf f)
    (rt : Rt) :
    let types (c : RuntimeCall R uf f) : List IrType :=
      runtimeTypes rt f.dynVals c.vtables.length c.mirSignature.parameterTypes
    let agree : Prop := ∀ p ∈ f.dynVals.zip (c.mirSignature.parameterTypes.zip
      c'.mirSignature.parameterTypes), p.1 = true →
        (layoutOf rt p.2.1).isSome = (layoutOf rt p.2.2).isSome
    (agree → types c = types c') ∧ ((types c).length = (types c').length → agree) := by
  intro types agree
  have hlen : c.mirSignature.parameterTypes.length = c'.mirSignature.parameterTypes.length :=
    c.converted.length_eq.symm.trans c'.converted.length_eq
  have hvtables : c.vtables.length = c'.vtables.length := c.length_vtables.trans c'.length_vtables.symm
  have hsame := c.same_types hf c' rt
  constructor
  · intro hagree
    show runtimeTypes _ _ _ _ = runtimeTypes _ _ _ _
    rw [runtimeTypes, runtimeTypes, hvtables, runtimeTypes_congr hlen]
    intro p hp
    by_cases htrue : p.1 = true
    · exact .inl ⟨htrue, hagree p hp htrue⟩
    · exact .inr ⟨Bool.eq_false_iff.mpr htrue, (hsame p hp).resolve_left htrue⟩
  · intro htypes
    refine dynVals_agree hlen hf.count_dynVals hsame ?_
    simp only [types, runtimeTypes, List.length_cons, List.length_append, List.length_replicate,
      hvtables] at htypes
    omega

/-! ### The functions of a lowered program -/

section
variable {P : CheckedProgram env R uf} {L : LirProgram} {fs : List AnyItem} {gs : List Item}
  {ctx₀ ctx : LowerCtx} {m : Mir.Item} {g : Item}

theorem ProgramRun.functionItems (h : ProgramRun P L fs gs ctx₀ ctx) :
    L.functionItems = gs ++ fs.filterMap AnyItem.asFunction := by
  have hfunction : (gs.map AnyItem.function).filterMap AnyItem.asFunction = gs := by
    rw [List.filterMap_map]
    exact List.filterMap_some
  rw [LirProgram.functionItems, h.functions, List.filterMap_append, hfunction]

theorem mem_asFunction : g ∈ fs.filterMap AnyItem.asFunction ↔ .function g ∈ fs := by
  rw [List.mem_filterMap]
  constructor
  · rintro ⟨f, hf, hg⟩
    cases f with
    | function f =>
      obtain rfl := Option.some.inj hg
      exact hf
    | constant c => cases hg
  · intro hg
    exact ⟨.function g, hg, rfl⟩

theorem ProgramRun.item_name (h : ProgramRun P L fs gs ctx₀ ctx)
    (hg : g ∈ fs.filterMap AnyItem.asFunction) : ∃ n, g.name = .item n := by
  have hmem := List.mem_map_of_mem (f := Item.name) hg
  rw [h.items.functions] at hmem
  obtain ⟨m, -, hm⟩ := List.mem_map.mp hmem
  exact ⟨m.name, hm.symm⟩

/-- Functions with the name of an item are lowered from items of that name. -/
theorem ProgramRun.count_item (h : ProgramRun P L fs gs ctx₀ ctx) (n : Identifier) :
    (L.functionItems.filter fun g => g.name = .item n).length = (P.lowered n).length := by
  have hgenerated : gs.filter (fun g => g.name = .item n) = [] := by
    refine List.filter_eq_nil_iff.mpr fun g hg => ?_
    simpa using (h.generated g hg).1 n
  have hitems : ((fs.filterMap AnyItem.asFunction).filter fun g => g.name = .item n).length =
      ((fs.filterMap AnyItem.asFunction).map Item.name).count (.item n) := by
    rw [List.count_eq_countP, List.countP_map, List.countP_eq_length_filter]
    rfl
  have hlowered : P.lowered n = (P.items.filter fun m => m.isFunction && m.inhabited env.rt).filter
      fun m => m.name = n := by
    rw [CheckedProgram.lowered, List.filter_filter]
    exact List.filter_congr fun m _ => Bool.and_comm ..
  rw [h.functionItems, List.filter_append, hgenerated, List.nil_append, hitems, h.items.functions,
    hlowered, List.count_eq_countP, List.countP_map, ← List.countP_eq_length_filter]
  exact List.countP_congr fun m _ => by simp

/-- The name of a generated function is the name of one function. -/
theorem ProgramRun.count_generated (h : ProgramRun P L fs gs ctx₀ ctx) {name : FunName}
    (hname : name ∈ gs.map Item.name) :
    (L.functionItems.filter fun g => g.name = name).length = 1 := by
  obtain ⟨g, hg, rfl⟩ := List.mem_map.mp hname
  have hitems : (fs.filterMap AnyItem.asFunction).filter (fun f => f.name = g.name) = [] := by
    refine List.filter_eq_nil_iff.mpr fun f hf => ?_
    obtain ⟨n, hn⟩ := h.item_name hf
    have hne := (h.generated g hg).1 n
    rw [hn]
    simpa using fun heq => hne heq.symm
  have hcount : (gs.filter fun f => f.name = g.name).length = (gs.map Item.name).count g.name := by
    rw [List.count_eq_countP, List.countP_map, List.countP_eq_length_filter]
    rfl
  rw [h.functionItems, List.filter_append, hitems, List.append_nil, hcount]
  exact List.count_eq_one_of_mem h.nodup hname

/-- A function of the program with the name of an item has been lowered from one. -/
theorem ProgramRun.item_of_function (h : ProgramRun P L fs gs ctx₀ ctx)
    (hg : g ∈ L.functionItems) {n : Identifier} (hname : g.name = .item n) :
    ∃ callee ∈ P.lowered n, ∃ params sig, callee.ty = .function params sig ∧
      itemSignature env.rt params sig = some (some g.irSignature) := by
  rw [h.functionItems] at hg
  rcases List.mem_append.mp hg with hg | hg
  · exact absurd hname ((h.generated g hg).1 n)
  · obtain ⟨callee, hcallee, ctx₁, s, irParams, hrun, -⟩ := h.items.sound _ (mem_asFunction.mp hg)
    have hname' : FunName.item callee.name = .item n := hrun.name.symm.trans hname
    obtain ⟨ctx₂, params, returnType, force, -, -, -, hkind⟩ := hrun.run
    rcases hkind with ⟨⟨c, mirTy, name, hf, -⟩, -⟩ | ⟨g', sig, hf, hty, hsig, -⟩
    · cases hf
    · obtain rfl := AnyItem.function.inj hf
      refine ⟨callee, List.mem_filter.mpr ⟨hcallee, ?_⟩, params, sig, hty, hsig⟩
      rw [Mir.Item.isFunction, hty, hrun.inhabited, FunName.item.inj hname']
      simp

/-- The signature of an item is the one that it is called with, up to the names of parameters. -/
theorem CheckedProgram.signature_types (P : CheckedProgram env R uf) (hm : m ∈ P.items)
    {params : List Mir.Var} {sig : Mir.Signature} (hty : m.ty = .function params sig)
    {irSig : Signature} (hsig : itemSignature env.rt params sig = some (some irSig)) :
    callSignature env.rt sig =
      { irSig with parameters := irSig.parameters.map fun p => ("", p.2) } := by
  obtain ⟨hparameters, hcontext, hreturn⟩ := itemSignature_some hsig
  have htypes := itemParameters_types ((P.checked m hm).parameters params sig hty).1 hparameters
  obtain ⟨parameters, context, returnPtr, returnType⟩ := irSig
  obtain rfl : context = true := hcontext
  have htypes : parameters.map (·.2) = _ := htypes
  have hnames : (parameters.map fun p => (("", p.2) : Identifier × IrType)) =
      (parameters.map (·.2)).map fun ty => ("", ty) := by
    rw [List.map_map]
    rfl
  have hreturn : (returnType, returnPtr) = _ := hreturn
  show _ = (⟨parameters.map fun p => ("", p.2), true, returnPtr, returnType⟩ : Signature)
  rw [hnames, htypes, callSignature]
  cases href : isReferenceType env.rt sig.returnType with
  | none =>
    rw [href] at hreturn
    obtain ⟨rfl, rfl⟩ := Prod.mk.inj hreturn
    rfl
  | some isReference =>
    cases isReference with
    | true =>
      rw [href] at hreturn
      obtain ⟨rfl, rfl⟩ := Prod.mk.inj hreturn
      rfl
    | false =>
      rw [href] at hreturn
      obtain ⟨rfl, rfl⟩ := Prod.mk.inj hreturn
      rfl

/-- Passing does not depend on the names of parameters. -/
theorem passes_unnamed {type : Operand → Option IrType} {dest : Option (Var × IrType)}
    {c : Option Operand} {args : List Operand} {returnPtr : Option Var} {sig : Signature} :
    Passes type dest c args returnPtr
        { sig with parameters := sig.parameters.map fun p => ("", p.2) } ↔
      Passes type dest c args returnPtr sig := by
  have hparams : ((sig.parameters.map fun p => (("", p.2) : Identifier × IrType)).map
      fun p => some p.2) = sig.parameters.map fun p => some p.2 := by
    rw [List.map_map]
    rfl
  constructor
  · intro h
    exact ⟨h.args.trans hparams, h.context, h.returnPtr, h.result⟩
  · intro h
    exact ⟨h.args.trans hparams.symm, h.context, h.returnPtr, h.result⟩

/-- What is known of a function of a lowered program, whether it is an item or generated. -/
structure FunctionRun (P : CheckedProgram env R uf) (L : LirProgram) (gs : List Item) (f : AnyItem)
    (S : Site) (s : Lowerer) : Prop where
  type : f.type = s.type S
  accounted : ∀ i ∈ f.instructions, Accounted S s i
  items : ∀ n sig, S.items n sig → P.Signatures n sig
  generated : ∀ func, S.generated func → s.queued func → func ∈ gs.map Item.name
  runtime : ∀ func sig, S.runtime func sig → (func, sig) ∈ s.runtimeFunctions →
    (func, sig) ∈ L.runtimeFunctions ∧ P.Records func sig
  drop : ∀ c, f = .constant c → .generatedDrop c.ty ∈ gs.map Item.name

theorem ProgramRun.emits_generated (h : ProgramRun P L fs gs ctx₀ ctx) (hg : g ∈ gs) :
    ∃ S s, FunctionRun P L gs (.function g) S s := by
  obtain ⟨-, name, ctx₁, s, hrun, hqueued⟩ := h.generated g hg
  refine ⟨generatedSite ctx₁.scopes g.irSignature (Generated name), s, ?_, ?_, ?_, hqueued, ?_, ?_⟩
  · funext op
    rw [AnyItem.type, AnyItem.vars, AnyItem.param, hrun.vars, hrun.scope]
    rfl
  · intro i hi
    rw [AnyItem.instructions, AnyItem.blocks, hrun.instructions] at hi
    rcases hrun.gained.emitted i hi with hi | hi
    · cases hi
    · exact hi
  · exact fun n sig hitem => hitem.elim
  · exact fun func sig hruntime => hruntime.elim
  · exact fun c hc => nomatch hc

theorem ProgramRun.emits_item (h : ProgramRun P L fs gs ctx₀ ctx) (hP : P.Callable) {f : AnyItem}
    (hf : f ∈ fs) : ∃ S s, FunctionRun P L gs f S s := by
  obtain ⟨m, hm, ctx₁, s, irParams, hrun, scopes, hgrows⟩ := h.items.sound f hf
  have hqueued : ∀ func, s.queued func → func ∈ gs.map Item.name := fun func hq =>
    h.queued func (hgrows.queued func ((queued_ctx s scopes func).mpr hq))
  refine ⟨P.site m.scope irParams, s, hrun.type, (hrun.accounted hP hm).1, fun n sig hsig => hsig,
    fun func _ hq => hqueued func hq, fun func sig hrecords hmem => ?_, ?_⟩
  · exact ⟨(h.recorded _).mpr (hgrows.recorded hmem), hrecords⟩
  · rintro c rfl
    obtain ⟨ctx₂, params, returnType, force, -, -, hblocks, hkind⟩ := hrun.run
    rcases hkind with ⟨⟨c', mirTy, name, hc, -, hdrop⟩, -⟩ | ⟨g, sig, hc, -⟩
    · obtain rfl := AnyItem.constant.inj hc
      obtain ⟨label, hlater⟩ := itemBlocks_later (P.checked m hm) hblocks
      exact hqueued _ (hlater.queued _ hdrop)
    · cases hc

theorem ProgramRun.emits (h : ProgramRun P L fs gs ctx₀ ctx) (hP : P.Callable) {f : AnyItem}
    (hf : f ∈ L.functions) : ∃ S s, FunctionRun P L gs f S s := by
  rw [h.functions] at hf
  rcases List.mem_append.mp hf with hf | hf
  · obtain ⟨g, hg, rfl⟩ := List.mem_map.mp hf
    exact h.emits_generated hg
  · exact h.emits_item hP hf

theorem ProgramRun.named (h : ProgramRun P L fs gs ctx₀ ctx) (hP : P.Callable) {f : AnyItem}
    {S : Site} {s : Lowerer} (hf : FunctionRun P L gs f S s) {name : FunName}
    (hname : name ∈ f.names) : (L.functionItems.filter fun g => g.name = name).length = 1 := by
  have hinstructions : name ∈ f.instructions.flatMap Instruction.names →
      (L.functionItems.filter fun g => g.name = name).length = 1 := by
    intro hname
    obtain ⟨i, hi, hname⟩ := List.mem_flatMap.mp hname
    have haccounted := hf.accounted i hi
    cases i with
    | call dest ctx func args returnPtr =>
      obtain rfl := List.mem_singleton.mp hname
      cases name with
      | item n =>
        obtain ⟨sig, hsig, -⟩ := haccounted
        obtain ⟨m, hm, hin, dest, ty, func, args, mirSignature, hcall, rfl, -⟩ := hf.items n sig hsig
        rw [h.count_item]
        exact (hP.callees m hm hin dest ty func args mirSignature hcall).1
      | generatedClone ty => exact h.count_generated (hf.generated _ haccounted.1 haccounted.2.1)
      | generatedDrop ty => exact h.count_generated (hf.generated _ haccounted.1 haccounted.2.1)
      | generatedEq ty => exact h.count_generated (hf.generated _ haccounted.1 haccounted.2.1)
    | functionAddress dest func =>
      obtain rfl := List.mem_singleton.mp hname
      exact h.count_generated (hf.generated _ haccounted.1 haccounted.2)
    | _ => cases hname
  cases f with
  | function g => exact hinstructions hname
  | constant c =>
    rcases List.mem_cons.mp hname with rfl | hname
    · exact h.count_generated (hf.drop c rfl)
    · exact hinstructions hname

theorem ProgramRun.generated_signature (h : ProgramRun P L fs gs ctx₀ ctx) {func : FunName}
    (hfunc : func ∈ gs.map Item.name) {sig : Signature} (hsig : generatedSignature func = some sig)
    (hg : g ∈ L.functionItems) (hname : g.name = func) : g.irSignature = sig := by
  obtain ⟨g', hg', hname'⟩ := List.mem_map.mp hfunc
  have hgs : g ∈ gs := by
    rw [h.functionItems] at hg
    rcases List.mem_append.mp hg with hg | hg
    · exact hg
    · obtain ⟨n, hn⟩ := h.item_name hg
      exact absurd ((hname'.trans hname.symm).trans hn) ((h.generated g' hg').1 n)
  have hgg' : g = g' := List.inj_on_of_nodup_map h.nodup hgs hg' (hname.trans hname'.symm)
  subst hgg'
  obtain ⟨-, name, ctx₁, s, hrun, -⟩ := h.generated g hg'
  rw [← hname, hrun.signature] at hsig
  exact Option.some.inj hsig

theorem ProgramRun.passes (h : ProgramRun P L fs gs ctx₀ ctx) (hP : P.Callable) {f : AnyItem}
    {S : Site} {s : Lowerer} (hf : FunctionRun P L gs f S s) {dest : Option (Var × IrType)} {c : Option Operand} {func : FunName}
    {args : List Operand} {returnPtr : Option Var}
    (hi : .call dest c func args returnPtr ∈ f.instructions) (hg : g ∈ L.functionItems)
    (hname : g.name = func) : Passes f.type dest c args returnPtr g.irSignature := by
  have haccounted := hf.accounted _ hi
  rw [hf.type]
  have hgenerated : S.generated func → s.queued func → (∃ sig, generatedSignature func = some sig ∧
      Passes (s.type S) dest c args returnPtr sig) →
        Passes (s.type S) dest c args returnPtr g.irSignature := by
    rintro hS hqueued ⟨sig, hsig, hpasses⟩
    rw [h.generated_signature (hf.generated func hS hqueued) hsig hg hname]
    exact hpasses
  cases func with
  | item n =>
    obtain ⟨sig, hsig, hpasses⟩ := haccounted
    obtain ⟨m, hm, hin, dest, ty, func, args, mirSignature, hcall, rfl, rfl⟩ := hf.items n sig hsig
    obtain ⟨callee, hcallee, params, calleeSig, hty, hir⟩ := h.item_of_function hg hname
    have hsame := (hP.callees m hm hin dest ty func args mirSignature hcall).2 callee hcallee
      params calleeSig hty
    have hunnamed := P.signature_types (List.mem_of_mem_filter hcallee) hty hir
    rw [← hsame, hunnamed] at hpasses
    exact passes_unnamed.mp hpasses
  | generatedClone ty => exact hgenerated haccounted.1 haccounted.2.1 haccounted.2.2
  | generatedDrop ty => exact hgenerated haccounted.1 haccounted.2.1 haccounted.2.2
  | generatedEq ty => exact hgenerated haccounted.1 haccounted.2.1 haccounted.2.2

/-- All that is recorded for a registered function has the same types. -/
theorem CheckedProgram.Callable.records (hP : P.Callable) {func : ℕ} {sig sig' : Signature}
    (h : P.Records func sig) (h' : P.Records func sig') :
    sig.parameters.map (·.2) = sig'.parameters.map (·.2) := by
  obtain ⟨m, hm, hin, dest, ty, args, vtables, mirSignature, hi, htypes⟩ := h
  obtain ⟨m', hm', hin', dest', ty', args', vtables', mirSignature', hi', htypes'⟩ := h'
  obtain ⟨⟨hregistered, hdyn, c, rfl, rfl, rfl⟩, -⟩ :=
    (P.checked m hm).runtimeCalls dest ty func args vtables mirSignature hi
  obtain ⟨⟨-, -, c', rfl, rfl, rfl⟩, -⟩ :=
    (P.checked m' hm').runtimeCalls dest' ty' func args' vtables' mirSignature' hi'
  have hagree := hP.agree m hm hin m' hm' hin' _ _ _ _ _ _ _ _ _ _ _ hi hi'
  rw [htypes, htypes', hdyn] at *
  exact (c.types_eq hregistered c' env.rt).1 hagree

theorem ProgramRun.runtime (h : ProgramRun P L fs gs ctx₀ ctx) (hP : P.Callable)
    (hempty : ctx₀.runtimeFunctions = []) {f : AnyItem} {S : Site} {s : Lowerer}
    (hf : FunctionRun P L gs f S s) {func : ℕ} {args : List Operand}
    (hi : .callRuntime func args ∈ f.instructions) :
    ∃ sig, L.runtimeFunctions.lookup func = some sig ∧
      args.map f.type = sig.parameters.map fun p => some p.2 := by
  obtain ⟨sig, hmem, hruntime, htypes⟩ := hf.accounted _ hi
  obtain ⟨hL, hrecords⟩ := hf.runtime func sig hruntime hmem
  obtain ⟨sig', hlookup⟩ : ∃ sig', L.runtimeFunctions.lookup func = some sig' := by
    cases hlookup : L.runtimeFunctions.lookup func with
    | some sig' => exact ⟨sig', rfl⟩
    | none => exact absurd rfl (bne_iff_ne.mp (List.lookup_eq_none_iff.mp hlookup _ hL))
  refine ⟨sig', hlookup, ?_⟩
  have hrecords' : P.Records func sig' := by
    have hctx := (h.recorded _).mp (mem_of_lookup hlookup)
    rcases h.items.recorded hP _ hctx with hnew | hrecords
    · rw [hempty] at hnew
      cases hnew
    · exact hrecords
  have hsame := hP.records hrecords hrecords'
  have hsome : ∀ sig : Signature, (sig.parameters.map fun p => some p.2) =
      (sig.parameters.map (·.2)).map some := fun sig => by
    rw [List.map_map]
    rfl
  rw [hf.type, htypes, hsome, hsome, hsame]

/-- The calls of a callable program are closed. -/
theorem ProgramRun.closed (h : ProgramRun P L fs gs ctx₀ ctx) (hP : P.Callable)
    (hempty : ctx₀.runtimeFunctions = []) : L.CallsClosed where
  names := by
    intro f hf name hname
    obtain ⟨S, s, hemits⟩ := h.emits hP hf
    exact h.named hP hemits hname
  calls := by
    intro f hf dest c func args returnPtr hi g hg hname
    obtain ⟨S, s, hemits⟩ := h.emits hP hf
    exact h.passes hP hemits hi hg hname
  runtime := by
    intro f hf func args hi
    obtain ⟨S, s, hemits⟩ := h.emits hP hf
    exact h.runtime hP hempty hemits hi

/-! ### Closed programs are callable -/

/-- What an instruction of a lowered item emits is there at the end. -/
theorem ItemRun.step {f : AnyItem} {s : Lowerer} {irParams : List (Identifier × IrType)}
    (h : ItemRun env ctx m f s irParams) (hm : m ∈ P.items) {i : Mir.Instruction}
    (hi : i ∈ m.instructions) : ∃ returnType force s₁ s₂, s₁.Fresh ∧
      instruction env returnType force i s₁ = some ((), s₂) ∧
        ∀ j ∈ s₂.emitted, j ∈ f.instructions := by
  obtain ⟨ctx₁, params, returnType, force, -, -, hblocks, -⟩ := h.run
  obtain ⟨s₁, s₂, hs₁, hstep, hlater⟩ := itemBlocks_step (P.checked m hm) hblocks hi
  refine ⟨returnType, force, s₁, s₂, hs₁, hstep, fun j hj => ?_⟩
  rw [h.instructions]
  exact hlater.emitted hj

theorem call_named {f : AnyItem} {dest : Option (Var × IrType)} {c : Option Operand}
    {func : FunName} {args : List Operand} {returnPtr : Option Var}
    (hi : .call dest c func args returnPtr ∈ f.instructions) : func ∈ f.names := by
  have hmem : func ∈ f.instructions.flatMap Instruction.names :=
    List.mem_flatMap.mpr ⟨_, hi, List.mem_singleton_self func⟩
  cases f with
  | function g => exact hmem
  | constant c => exact List.mem_cons_of_mem _ hmem

theorem ProgramRun.callee (_ : ProgramRun P L fs gs ctx₀ ctx) (hclosed : L.CallsClosed)
    {f : AnyItem} (hf : f ∈ L.functions) {dest : Option (Var × IrType)} {c : Option Operand}
    {func : FunName} {args : List Operand} {returnPtr : Option Var}
    (hi : .call dest c func args returnPtr ∈ f.instructions) :
    ∃ g ∈ L.functionItems, g.name = func ∧ Passes f.type dest c args returnPtr g.irSignature := by
  have hone := hclosed.names f hf func (call_named hi)
  obtain ⟨g, hmem⟩ := List.exists_mem_of_length_pos (hone.symm ▸ Nat.one_pos)
  obtain ⟨hg, hname⟩ := List.mem_filter.mp hmem
  have hname : g.name = func := of_decide_eq_true hname
  exact ⟨g, hg, hname, hclosed.calls f hf dest c func args returnPtr hi g hg hname⟩

end

def tokenEnv : LowerEnv where
  rt := tokenRt
  fullName n := n.ident
  dynVals _ := []
  addrBytes _ := []
  f32Bits n := n

end Roto.Lir
