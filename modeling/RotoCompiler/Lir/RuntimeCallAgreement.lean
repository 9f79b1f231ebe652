import RotoCompiler.Lir.BoundaryAgreement
import RotoCompiler.Lir.Emission

/-!
# Calls of registered functions

The arguments that a call is given, compared with the parameters of the trampoline of the
function. A registered type of size zero is not passed, and neither is a `DynVal` of a type
without values; the trampoline takes a pointer for each of them.
-/

namespace Roto.Lir
open Mir TypeChecker Roto.Value

variable {rt : Rt} {R : Registry} {uf : UnionFind}

/-! ### The emitted arguments -/

/-- The kind of the argument that is passed, if there is one. -/
def argumentKind (rt : Rt) (dynVal : Bool) (ty : Ty) : Option Kind :=
  if dynVal then (layoutOf rt ty).map fun _ => .pointer else (lowerType rt ty).map kind

def Argument.kind (a : Argument) : Kind := Lir.kind a.2.2

theorem vtableArgs_kinds {i : ℕ} {vtables : List Ty} {s s' : Lowerer} {args : List Argument}
    (h : vtableArgs rt i vtables s = some (args, s')) :
    args.map Argument.kind = List.replicate vtables.length .pointer := by
  induction vtables generalizing i s s' args with
  | nil =>
    obtain ⟨rfl, -⟩ := Lower.pure_some h
    rfl
  | cons tyRef vtables ih =>
    obtain ⟨base, s₁, -, h⟩ := Lower.bind_some h
    obtain ⟨rest, s₂, hrest, h⟩ := Lower.bind_some h
    obtain ⟨rfl, -⟩ := Lower.pure_some h
    rw [List.map_cons, ih hrest, List.length_cons, List.replicate_succ]
    rfl

theorem runtimeArg_kind {i : ℕ} {dynVal : Bool} {arg : Mir.Var} {ty : Ty} {s s' : Lowerer}
    {a : Option Argument} (h : runtimeArg rt i dynVal arg ty s = some (a, s')) :
    a.map Argument.kind = argumentKind rt dynVal ty := by
  unfold runtimeArg at h
  cases dynVal with
  | false =>
    simp only [Bool.not_false, if_true] at h
    cases hty : lowerType rt ty with
    | none =>
      rw [hty] at h
      obtain ⟨rfl, -⟩ := Lower.pure_some h
      simp [argumentKind, hty]
    | some irTy =>
      rw [hty] at h
      obtain ⟨rfl, -⟩ := Lower.pure_some h
      simp [argumentKind, hty, Argument.kind]
  | true =>
    simp only [Bool.not_true, Bool.false_eq_true, if_false] at h
    cases hl : layoutOf rt ty with
    | none =>
      rw [hl] at h
      obtain ⟨rfl, -⟩ := Lower.pure_some h
      simp [argumentKind, hl]
    | some elemLayout =>
      rw [hl] at h
      obtain ⟨stackSlot, s₁, -, h⟩ := Lower.bind_some h
      obtain ⟨u, s₂, -, h⟩ := Lower.bind_some h
      obtain ⟨rfl, -⟩ := Lower.pure_some h
      simp [argumentKind, hl, Argument.kind, Lir.kind]

theorem runtimeArgs_kinds {dynVals : List Bool} {tys : List Ty} {i : ℕ} {mirArgs : List Mir.Var}
    {s s' : Lowerer} {args : List Argument} (hlen : i + mirArgs.length = tys.length)
    (h : runtimeArgs rt dynVals tys i mirArgs s = some (args, s')) :
    args.map Argument.kind =
      ((dynVals.zip tys).drop i).filterMap fun p => argumentKind rt p.1 p.2 := by
  induction mirArgs generalizing i s s' args with
  | nil =>
    obtain ⟨rfl, -⟩ := Lower.pure_some h
    have hdrop : (dynVals.zip tys).drop i = [] := by
      apply List.drop_eq_nil_of_le
      rw [List.length_zip]
      simp only [List.length_nil] at hlen
      omega
    rw [hdrop]
    rfl
  | cons arg mirArgs ih =>
    rw [List.length_cons] at hlen
    obtain ⟨ty, s₁, hunwrap, h⟩ := Lower.bind_some h
    obtain ⟨hty, rfl⟩ := Lower.unwrap_some hunwrap
    obtain ⟨dynVal, s₂, hunwrap', h⟩ := Lower.bind_some h
    obtain ⟨hdyn, rfl⟩ := Lower.unwrap_some hunwrap'
    obtain ⟨a, s₃, ha, h⟩ := Lower.bind_some h
    obtain ⟨rest, s₄, hrest, h⟩ := Lower.bind_some h
    obtain ⟨rfl, -⟩ := Lower.pure_some h
    have hpair : (dynVals.zip tys)[i]? = some (dynVal, ty) :=
      List.getElem?_zip_eq_some.mpr ⟨hdyn, hty⟩
    obtain ⟨hi, hget⟩ := List.getElem?_eq_some_iff.mp hpair
    have hkind := runtimeArg_kind ha
    have ih := ih (by omega) hrest
    rw [List.drop_eq_getElem_cons hi, hget, List.map_append, ih, List.filterMap_cons]
    simp only [← hkind]
    cases a with
    | none => rfl
    | some a => rfl

/-- The one call that is emitted, and the signature that is recorded for it. -/
theorem callRuntime_emits {funcRef : ℕ} {dynVals : List Bool} {mirArgs : List Mir.Var}
    {vtables : List Ty} {mirSignature : Mir.Signature} {s s' : Lowerer} {result : Option Operand}
    (hlen : mirArgs.length = mirSignature.parameterTypes.length)
    (h : callRuntime rt funcRef dynVals mirArgs vtables mirSignature s = some (result, s')) :
    ∃ args sig, s'.runtimeCalls = s.runtimeCalls ++ [(funcRef, args)] ∧
      s'.runtimeFunctions.lookup funcRef = some sig ∧ args.length = sig.parameters.length ∧
      sig.parameters.map (fun p => kind p.2) = .pointer ::
        (List.replicate vtables.length .pointer ++
          (dynVals.zip mirSignature.parameterTypes).filterMap fun p => argumentKind rt p.1 p.2) := by
  obtain ⟨outPtr, s₁, hout, h⟩ := Lower.bind_some h
  obtain ⟨tables, s₂, htables, h⟩ := Lower.bind_some h
  obtain ⟨rest, s₃, hrest, h⟩ := Lower.bind_some h
  obtain ⟨u, s₄, hrecord, h⟩ := Lower.bind_some h
  obtain ⟨u', s₅, hemit, h⟩ := Lower.bind_some h
  obtain rfl := Lower.modify_some hrecord
  obtain rfl := Lower.emit_some hemit
  have hcalls : s₃.runtimeCalls = s.runtimeCalls :=
    ((quiet_runtimeArgs _ _ _ _ _ _ _ hrest).1.trans (quiet_vtableArgs _ _ _ _ _ htables).1).trans
      (quiet_newStackSlot _ _ _ _ hout).1
  have hkinds : (tables ++ rest).map Argument.kind = List.replicate vtables.length .pointer ++
      (dynVals.zip mirSignature.parameterTypes).filterMap fun p => argumentKind rt p.1 p.2 := by
    rw [List.map_append, vtableArgs_kinds htables,
      runtimeArgs_kinds (by rw [hlen, Nat.zero_add]) hrest, List.drop_zero]
  -- reading the result afterwards calls nothing
  have hquiet : ∀ {m : Lower (Option Operand)} {t : Lowerer}, m t = some (result, s') → Quiet m →
      s'.runtimeCalls = t.runtimeCalls ∧ s'.runtimeFunctions = t.runtimeFunctions :=
    fun hrun hm => hm _ _ _ hrun
  obtain ⟨hcalls', hfunctions⟩ := hquiet h (by
    split
    · exact .pure none
    · exact .pure _
    · split
      · exact .pure none
      · exact (quiet_newTmp _).bind fun _ => (quiet_emit rfl).bind fun _ => .pure _)
  let all : List Argument := (.place outPtr, "ret", .pointer) :: (tables ++ rest)
  refine ⟨all.map (·.1), ⟨all.map (·.2), false, true, none⟩, ?_, ?_, ?_, ?_⟩
  · rw [hcalls', runtimeCalls_emit]
    exact congrArg (· ++ _) hcalls
  · rw [hfunctions]
    exact List.lookup_cons_self
  · rw [List.length_map, List.length_map]
  · rw [← hkinds, List.map_map]
    rfl

/-! ### The registered types -/

theorem closed_unit : Closed .unit := by
  intro s u
  simp [Typ.substitute]

theorem substituteList_closed {args : List Typ} (h : ∀ a ∈ args, Closed a) (s : Identifier)
    (u : Typ) : Typ.substituteList args (.explicitVar s) u = args := by
  induction args with
  | nil => rfl
  | cons a args ih =>
    obtain ⟨ha, hargs⟩ := List.forall_mem_cons.mp h
    rw [Typ.substituteList, ha s u, ih hargs]

theorem closed_name {n : ResolvedName} {args : List Typ} (h : ∀ a ∈ args, Closed a) :
    Closed (.name n args) := by
  intro s u
  rw [Typ.substitute, if_neg (by simp), substituteList_closed h]

theorem resolves_name (uf : UnionFind) (n : ResolvedName) (args : List Typ) :
    uf.Resolves (.name n args) (.name n args) :=
  .inl ⟨rfl, rfl⟩

theorem means_typeName {τ : RustTy} {id : ℕ} {t : Typ} (hτ : RustTy.registered τ = some id)
    (h : (R.typeName id).map (fun n => Typ.name n []) = some t) : Means R uf τ t ∧ Closed t := by
  obtain ⟨n, hn, rfl⟩ := Option.map_eq_some_iff.mp h
  refine ⟨.registered hτ (resolves_name uf n []) fun d hd => ?_, closed_name (by simp)⟩
  rcases R.registered id n d hn hd with rfl | h | h
  · exact .inl ⟨n, rfl⟩
  · exact .inr (.inl h)
  · exact .inr (.inr h)

/-- The type that is made from a Rust type stands for it. -/
theorem means_of_rust {τ : RustTy} {t : Typ} (h : rustTypeToRotoType R τ = some t) :
    Means R uf τ t ∧ Closed t := by
  induction τ generalizing t with
  | unit =>
    obtain rfl := Option.some.inj h
    exact ⟨.unit (.inl ⟨rfl, rfl⟩), closed_unit⟩
  | primitive p =>
    obtain rfl := Option.some.inj h
    exact ⟨.primitive (resolves_name uf _ _) rfl, closed_name (by simp)⟩
  | leaf id => exact means_typeName rfl h
  | val id => exact means_typeName rfl h
  | dynVal => cases h
  | vtable => cases h
  | erasedList =>
    obtain rfl := Option.some.inj h
    exact ⟨.erasedList (resolves_name uf _ _), closed_name (by simp)⟩
  | option τ ih =>
    obtain ⟨a, ha, h⟩ := Option.bind_eq_some_iff.mp h
    obtain rfl := Option.some.inj h
    exact ⟨.option (resolves_name uf _ _) (ih ha).1, closed_name (by simp [(ih ha).2])⟩
  | list τ ih =>
    obtain ⟨a, ha, h⟩ := Option.bind_eq_some_iff.mp h
    obtain rfl := Option.some.inj h
    exact ⟨.list (resolves_name uf _ _) (ih ha).1, closed_name (by simp [(ih ha).2])⟩
  | result τ σ ihτ ihσ =>
    obtain ⟨a, ha, h⟩ := Option.bind_eq_some_iff.mp h
    obtain ⟨b, hb, h⟩ := Option.bind_eq_some_iff.mp h
    obtain rfl := Option.some.inj h
    exact ⟨.result (resolves_name uf _ _) (ihτ ha).2 (ihτ ha).1 (ihσ hb).1,
      closed_name (by simp [(ihτ ha).2, (ihσ hb).2])⟩
  | verdict τ σ ihτ ihσ =>
    obtain ⟨a, ha, h⟩ := Option.bind_eq_some_iff.mp h
    obtain ⟨b, hb, h⟩ := Option.bind_eq_some_iff.mp h
    obtain rfl := Option.some.inj h
    exact ⟨.verdict (resolves_name uf _ _) (ihτ ha).2 (ihτ ha).1 (ihσ hb).1,
      closed_name (by simp [(ihτ ha).2, (ihσ hb).2])⟩

/-! ### The parameters of a registered function -/

/-- A type that is passed by pointer. -/
def ByPointer (rt : Rt) : Ty → Prop
  | .runtime id => (rt.runtimeType id).layout.size ≠ 0
  | .primitive p => byValue p = none
  | _ => True

/-- A parameter that the trampoline takes is passed: a `DynVal` of a type with values, and a
registered type that is passed by pointer. -/
def Passed (rt : Rt) (τ : RustTy) (ty : Ty) : Prop :=
  (τ = .dynVal → (layoutOf rt ty).isSome) ∧ ((RustTy.registered τ).isSome → ByPointer rt ty)

theorem byValue_getD (p : Primitive) : (byValue p).getD .pointer = .pointer ↔ byValue p = none := by
  cases p with
  | int _ size => cases size <;> simp [byValue]
  | float size => cases size <;> simp [byValue]
  | _ => simp [byValue]

theorem Means.argument {τ : RustTy} {t : Typ} {ty : Ty} (h : Means R uf τ t) (rt : Rt)
    (hc : ConvertsTo R.types uf t ty) :
    (argumentKind rt false ty = none ∨ τ.asParam.isSome) ∧
      (argumentKind rt false ty = τ.asParam ↔ ((RustTy.registered τ).isSome → ByPointer rt ty)) := by
  have hkind : argumentKind rt false ty = (lowerType rt ty).map kind := rfl
  cases hreg : RustTy.registered τ with
  | none =>
    have hpassed := h.passed rt hc hreg
    rw [hkind, hpassed]
    refine ⟨?_, by simp⟩
    cases τ.asParam <;> simp
  | some id =>
    have hτ : τ.asParam = some .pointer := by
      cases τ <;> cases hreg <;> rfl
    refine ⟨.inr (by rw [hτ]; rfl), ?_⟩
    rw [hkind, hτ]
    cases h with
    | @registered _ i _ _ _ hid hr hd =>
      rw [hreg] at hid
      obtain rfl := Option.some.inj hid
      obtain ⟨d, hn⟩ := hc.declared hr
      rcases hd d hn with ⟨m, rfl⟩ | ⟨p, rfl⟩ | ⟨tn, rfl⟩
      · obtain rfl := hc.runtime hr hn
        rw [lowerType_runtime]
        by_cases hsize : (rt.runtimeType id).layout.size = 0 <;> simp [hsize, kind, ByPointer]
      · obtain rfl := hc.primitiveName hr hn
        rw [lowerType_primitive]
        simp [ByPointer, byValue_getD]
      · obtain ⟨inner, rfl⟩ := hc.list hr hn
        rw [lowerType_list]
        simp [ByPointer, kind]
    | _ => cases hreg

/-- The methods of `List` take v-tables and nothing else, or no v-tables. -/
theorem generic_parameters {f : RuntimeFunction} (hf : f ∈ listFunctions) :
    (∃ ps : List Identifier, f.signature.types = ps.map .explicitVar) ∧
      ((f.parameterTypes = List.replicate f.vtables.length .vtable ∧
          f.signature.parameterTypes = []) ∨
        f.vtables = [] ∧ List.Forall₂ (fun τ t => τ = .dynVal ∨ (τ = .erasedList ∧ ∃ a, t = .list a) ∨
          ∃ p, τ = .primitive p ∧ t = .named p.ident []) f.parameterTypes
            f.signature.parameterTypes) := by
  simp only [listFunctions, List.mem_cons, List.not_mem_nil, or_false] at hf
  have dyn : ∀ t, RustTy.dynVal = .dynVal ∨ (RustTy.dynVal = .erasedList ∧ ∃ a, t = Typ.list a) ∨
      ∃ p, RustTy.dynVal = .primitive p ∧ t = .named p.ident [] := fun t => .inl rfl
  have erased : ∀ a, RustTy.erasedList = .dynVal ∨
      (RustTy.erasedList = .erasedList ∧ ∃ b, Typ.list a = .list b) ∨
      ∃ p, RustTy.erasedList = .primitive p ∧ Typ.list a = .named p.ident [] :=
    fun a => .inr (.inl ⟨rfl, a, rfl⟩)
  have primitive : ∀ p, RustTy.primitive p = .dynVal ∨
      (RustTy.primitive p = .erasedList ∧ ∃ b, Typ.named p.ident [] = .list b) ∨
      ∃ q, RustTy.primitive p = .primitive q ∧ Typ.named p.ident [] = .named q.ident [] :=
    fun p => .inr (.inr ⟨p, rfl, rfl⟩)
  rcases hf with rfl | rfl | rfl | rfl | rfl | rfl | rfl | rfl | rfl | rfl | rfl
  · exact ⟨⟨["T"], rfl⟩, .inl ⟨rfl, rfl⟩⟩
  · exact ⟨⟨["T"], rfl⟩, .inr ⟨rfl, .cons (erased _) (.cons (dyn _) .nil)⟩⟩
  · exact ⟨⟨["T"], rfl⟩, .inr ⟨rfl, .cons (erased _) (.cons (dyn _) .nil)⟩⟩
  · exact ⟨⟨["T"], rfl⟩, .inr ⟨rfl, .cons (erased _) (.cons (dyn _) .nil)⟩⟩
  · exact ⟨⟨["T"], rfl⟩, .inr ⟨rfl, .cons (erased _) (.cons (erased _) .nil)⟩⟩
  · exact ⟨⟨["T"], rfl⟩, .inr ⟨rfl, .cons (erased _) (.cons (primitive _) .nil)⟩⟩
  · exact ⟨⟨["T"], rfl⟩,
      .inr ⟨rfl, .cons (erased _) (.cons (primitive _) (.cons (primitive _) .nil))⟩⟩
  · exact ⟨⟨["T"], rfl⟩, .inr ⟨rfl, .cons (erased _) .nil⟩⟩
  · exact ⟨⟨["T"], rfl⟩, .inr ⟨rfl, .cons (erased _) .nil⟩⟩
  · exact ⟨⟨["T"], rfl⟩, .inr ⟨rfl, .cons (erased _) .nil⟩⟩
  · exact ⟨⟨[], rfl⟩, .inr ⟨rfl, .cons (erased _) (.cons (primitive .string) .nil)⟩⟩

theorem forall₂_of_mapM {α β : Type} {f : α → Option β} {as : List α} {bs : List β}
    (h : as.mapM f = some bs) : List.Forall₂ (fun a b => f a = some b) as bs := by
  induction as generalizing bs with
  | nil =>
    obtain rfl := Option.some.inj h
    exact .nil
  | cons a as ih =>
    rw [List.mapM_cons] at h
    obtain ⟨b, hb, h⟩ := Option.bind_eq_some_iff.mp h
    obtain ⟨cs, hcs, h⟩ := Option.bind_eq_some_iff.mp h
    obtain rfl := Option.some.inj h
    exact .cons hb (ih hcs)

/-- What is passed for the parameters of a function without v-tables stands for them. -/
theorem RuntimeCall.parameters {f : RuntimeFunction} (hf : Registered R f)
    (c : RuntimeCall R uf f) :
    (f.parameterTypes = List.replicate f.vtables.length .vtable ∧
        c.mirSignature.parameterTypes = []) ∨
      f.vtables = [] ∧ List.Forall₂
        (fun τ ty => τ = .dynVal ∨ ∃ t, Means R uf τ t ∧ ConvertsTo R.types uf t ty)
          f.parameterTypes c.mirSignature.parameterTypes := by
  have hconverted := c.converted
  cases hf with
  | @inferred rust rustReturn params ret hparams _ =>
    refine .inr ⟨rfl, ?_⟩
    have hmeans : List.Forall₂ (fun τ t => Means R uf τ t) rust params := by
      exact (forall₂_of_mapM hparams).imp fun τ t h => (means_of_rust h).1
    refine (forall₂_comp hmeans hconverted).imp ?_
    rintro τ ty ⟨t, ht, hty⟩
    exact .inr ⟨t, ht, hty⟩
  | generic hf =>
    obtain ⟨⟨ps, hps⟩, ⟨hvtables, hnil⟩ | ⟨hnil, hall⟩⟩ := generic_parameters hf
    · rw [hnil] at hconverted
      exact .inl ⟨hvtables, List.forall₂_nil_left_iff.mp hconverted⟩
    · refine .inr ⟨hnil, (forall₂_comp hall hconverted).imp ?_⟩
      rintro τ ty ⟨t, h | ⟨rfl, a, rfl⟩ | ⟨p, rfl, rfl⟩, hty⟩
      · exact .inl h
      · have hname : (Typ.list a).substituteMany (f.signature.types.zip c.typeArgs) =
            .list (a.substituteMany (f.signature.types.zip c.typeArgs)) := by
          rw [hps]
          exact substituteMany_name _ _ _ _
        rw [hname] at hty
        exact .inr ⟨_, .erasedList (resolves_name uf _ _), hty⟩
      · have hname : (Typ.named p.ident []).substituteMany (f.signature.types.zip c.typeArgs) =
            .named p.ident [] := by
          rw [hps]
          exact substituteMany_name _ _ _ _
        rw [hname] at hty
        exact .inr ⟨_, .primitive (resolves_name uf _ _) rfl, hty⟩

theorem asParam_vtables (n : ℕ) :
    (List.replicate n RustTy.vtable).filterMap RustTy.asParam = List.replicate n .pointer := by
  rw [List.filterMap_replicate_of_some (show RustTy.vtable.asParam = some .pointer from rfl)]

/-- The kinds of the arguments are the parameters of the trampoline if and only if every
parameter is passed. -/
theorem argumentKinds_eq_trampoline_iff {f : RuntimeFunction} (hf : Registered R f)
    (c : RuntimeCall R uf f) (rt : Rt) :
    Kind.pointer :: (List.replicate c.vtables.length .pointer ++
        (f.dynVals.zip c.mirSignature.parameterTypes).filterMap fun p => argumentKind rt p.1 p.2) =
      f.trampoline ↔
    ∀ p ∈ f.parameterTypes.zip c.mirSignature.parameterTypes, Passed rt p.1 p.2 := by
  unfold RuntimeFunction.trampoline
  rw [c.length_vtables]
  rcases c.parameters hf with ⟨hvtables, hnil⟩ | ⟨hnil, hall⟩
  · rw [hnil, hvtables, asParam_vtables]
    simp
  · rw [hnil]
    have hzip : (f.dynVals.zip c.mirSignature.parameterTypes).filterMap
        (fun p => argumentKind rt p.1 p.2) =
        (f.parameterTypes.zip c.mirSignature.parameterTypes).filterMap
          fun p => argumentKind rt (p.1 = .dynVal) p.2 := by
      unfold RuntimeFunction.dynVals
      rw [List.zip_map_left, List.filterMap_map]
      rfl
    have hpairs : ∀ p ∈ f.parameterTypes.zip c.mirSignature.parameterTypes,
        (argumentKind rt (p.1 = .dynVal) p.2 = none ∨ p.1.asParam.isSome) ∧
          (argumentKind rt (p.1 = .dynVal) p.2 = p.1.asParam ↔ Passed rt p.1 p.2) := by
      rintro ⟨τ, ty⟩ hp
      by_cases hτ : τ = .dynVal
      · subst hτ
        refine ⟨.inr rfl, ?_⟩
        cases hl : layoutOf rt ty <;> simp [argumentKind, Passed, hl, RustTy.asParam,
          RustTy.registered]
      · obtain ⟨t, hmeans, hconverts⟩ := (List.forall₂_zip hall hp).resolve_left hτ
        have harg := hmeans.argument rt hconverts
        simp only [decide_eq_false hτ]
        exact ⟨harg.1, harg.2.trans ⟨fun h => ⟨fun hd => absurd hd hτ, h⟩, And.right⟩⟩
    simp only [List.length_nil, List.replicate_zero, List.nil_append, List.cons.injEq, true_and]
    rw [hzip, filterMap_zip_eq_iff hall.length_eq fun p hp => (hpairs p hp).1]
    exact forall₂_congr fun p hp => (hpairs p hp).2

/-! ### Both directions -/

/-- A Roto function that is retrieved is called with the parameters that it has been
declared with, if and only if no registered type of size zero is among them, and always
returns as it has been declared to; a registered function is called with the parameters of
its trampoline if and only if each of them is passed. -/
theorem calling_conventions_agree_iff (hv : uf.Valid R.types) (rt : Rt) :
    (∀ (f : LoweredFunction R uf) (ir : Signature) (uf₁ uf₂ : UnionFind) (fuel : ℕ)
        (functions : List (String × FunctionInfo)) (name : String) (F : RotoFunc)
        (returnByRef : Bool), uf.Compressed uf₁ →
      itemSignature rt f.parameters f.mirSignature = some (some ir) →
      functions.lookup s!"pkg.{name}" = some (declareFunction (some f.signature) ir) →
      getFunction R.types fuel functions uf₁ name F = some (.ok returnByRef, uf₂) →
      (returnByRef = true ↔ F.ret.returned rt = .aggregate) ∧
        (F.invoked rt returnByRef = (declareFunction (some f.signature) ir).machine ↔
          ∀ τ ∈ F.args, ∀ id, RustTy.registered τ = some id →
            (rt.runtimeType id).layout.size ≠ 0)) ∧
    (∀ (f : RuntimeFunction) (c : RuntimeCall R uf f) (funcRef : ℕ) (s s' : Lowerer)
        (result : Option Operand), Registered R f →
      callRuntime rt funcRef f.dynVals c.args c.vtables c.mirSignature s = some (result, s') →
      ∃ args sig, s'.runtimeCalls = s.runtimeCalls ++ [(funcRef, args)] ∧
        s'.runtimeFunctions.lookup funcRef = some sig ∧ args.length = sig.parameters.length ∧
        (sig.parameters.map (fun p => kind p.2) = f.trampoline ↔
          ∀ p ∈ f.parameterTypes.zip c.mirSignature.parameterTypes, Passed rt p.1 p.2)) := by
  constructor
  · intro f ir uf₁ uf₂ fuel functions name F returnByRef hc hir hmem hget
    exact retrieved_agrees_iff hv f hc hir hmem hget
  · intro f c funcRef s s' result hf h
    obtain ⟨args, sig, hcalls, hsig, hlen, hkinds⟩ := callRuntime_emits c.length_args h
    refine ⟨args, sig, hcalls, hsig, hlen, ?_⟩
    rw [hkinds]
    exact argumentKinds_eq_trampoline_iff hf c rt

/-! ### `fn f(x: Token, y: u8)`, where `Token` is registered and has size zero -/

def tokenTypes : TypeMap :=
  [(⟨0, "u8"⟩, .primitive (.int .unsigned .i8)), (⟨0, "u16"⟩, .primitive (.int .unsigned .i16)),
    (⟨0, "u32"⟩, .primitive (.int .unsigned .i32)), (⟨0, "u64"⟩, .primitive (.int .unsigned .i64)),
    (⟨0, "i8"⟩, .primitive (.int .signed .i8)), (⟨0, "i16"⟩, .primitive (.int .signed .i16)),
    (⟨0, "i32"⟩, .primitive (.int .signed .i32)), (⟨0, "i64"⟩, .primitive (.int .signed .i64)),
    (⟨0, "f32"⟩, .primitive (.float .f32)), (⟨0, "f64"⟩, .primitive (.float .f64)),
    (⟨0, "bool"⟩, .primitive .bool), (⟨0, "char"⟩, .primitive .char),
    (⟨0, "String"⟩, .primitive .string), (⟨0, "Asn"⟩, .primitive .asn),
    (⟨0, "IpAddr"⟩, .primitive .ipAddr), (⟨0, "Prefix"⟩, .primitive .ipPrefix),
    (⟨0, "Option"⟩, .enum ⟨⟨0, "Option"⟩, [.explicitVar "T"]⟩
      [⟨"Some", [.explicitVar "T"]⟩, ⟨"None", []⟩]),
    (⟨0, "Verdict"⟩, .enum ⟨⟨0, "Verdict"⟩, [.explicitVar "A", .explicitVar "R"]⟩
      [⟨"Accept", [.explicitVar "A"]⟩, ⟨"Reject", [.explicitVar "R"]⟩]),
    (⟨0, "Result"⟩, .enum ⟨⟨0, "Result"⟩, [.explicitVar "T", .explicitVar "E"]⟩
      [⟨"Ok", [.explicitVar "T"]⟩, ⟨"Err", [.explicitVar "E"]⟩]),
    (⟨0, "List"⟩, .list ⟨⟨0, "List"⟩, [.explicitVar "T"]⟩),
    (⟨0, "Token"⟩, .runtime ⟨0, "Token"⟩ 7)]

def tokens : Registry where
  types := tokenTypes
  wellFormed := by decide
  typeName id := if id = 7 then some ⟨0, "Token"⟩ else none
  primitive p := by
    cases p with
    | int kind size => cases kind <;> cases size <;> rfl
    | float size => cases size <;> rfl
    | _ => rfl
  option := rfl
  verdict := rfl
  result := rfl
  list := rfl
  registered := by
    intro id n d hn hd
    split_ifs at hn with hid
    obtain rfl := Option.some.inj hn
    obtain rfl := Option.some.inj (show some (TypeDefinition.runtime ⟨0, "Token"⟩ 7) = some d from hd)
    exact .inl (by rw [hid])

def tokenRt : Rt where
  runtimeType id := ⟨.cloneDrop, if id = 7 then .unit else .eight⟩
  rotoString := 0
  erasedList := 1
  ipAddr := 2
  ipPrefix := 3
  string_clone := rfl
  list_clone := rfl
  string_pos := by decide
  list_pos := by decide
  ipAddr_pos := by decide
  ipPrefix_pos := by decide

theorem empty_valid : UnionFind.empty.Valid tokens.types := fun _ ht => nomatch ht

/-- `fn f(y: u8) {}` -/
def takesByte : LoweredFunction tokens .empty where
  parameters := [⟨1, .explicit "y"⟩]
  signature := ⟨[], [.u8], .unit⟩
  mirSignature := ⟨[.u8], .unit⟩
  known := by decide
  known_return := by decide
  converted := .cons ⟨2, .empty, .empty, .refl _, rfl⟩ .nil
  converted_return := ⟨2, .empty, .empty, .refl _, rfl⟩
  length_parameters := rfl

/-- `fn f(x: Token, y: u8) {}` -/
def takesToken : LoweredFunction tokens .empty where
  parameters := [⟨1, .explicit "x"⟩, ⟨1, .explicit "y"⟩]
  signature := ⟨[], [.named "Token" [], .u8], .unit⟩
  mirSignature := ⟨[.runtime 7, .u8], .unit⟩
  known := by decide
  known_return := by decide
  converted := .cons ⟨2, .empty, .empty, .refl _, rfl⟩ (.cons ⟨2, .empty, .empty, .refl _, rfl⟩ .nil)
  converted_return := ⟨2, .empty, .empty, .refl _, rfl⟩
  length_parameters := rfl

def rustByte : RotoFunc := ⟨[.primitive (.int .unsigned .i8)], .unit⟩

def rustToken : RotoFunc := ⟨[.val 7, .primitive (.int .unsigned .i8)], .unit⟩

/-- A registered function with the parameters of `rustToken`. -/
def registeredToken : RuntimeFunction :=
  ⟨rustToken.args, .unit, ⟨[], [.named "Token" [], .u8], .unit⟩, []⟩

def callsToken : RuntimeCall tokens .empty registeredToken where
  typeArgs := []
  args := takesToken.parameters
  vtables := []
  mirSignature := takesToken.mirSignature
  converted := takesToken.converted
  length_typeArgs := rfl
  length_args := rfl
  length_vtables := rfl

def emptyLowerer : Lowerer := ⟨[], 0, [], 1, 0, [], 1, [], [], [], []⟩

theorem takesByte_agrees :
    rustByte.invoked tokenRt false =
      (declareFunction (some takesByte.signature) ⟨[("y", .u8)], true, false, none⟩).machine :=
  (((calling_conventions_agree_iff empty_valid tokenRt).1 takesByte
    ⟨[("y", .u8)], true, false, none⟩ .empty .empty 1
    [("pkg.f", declareFunction (some takesByte.signature) ⟨[("y", .u8)], true, false, none⟩)] "f"
    rustByte false (.refl _) rfl rfl rfl).2).mpr fun τ hτ id hid => by
      rw [List.mem_singleton.mp hτ] at hid
      cases hid

/-- `invoke` passes a pointer for the token, which the function does not take; and a
registered function with the same parameters does not get the pointer that it takes. -/
theorem takesToken_disagrees :
    (∃ ir, itemSignature tokenRt takesToken.parameters takesToken.mirSignature = some (some ir) ∧
      getFunction tokens.types 1 [("pkg.f", declareFunction (some takesToken.signature) ir)] .empty
        "f" rustToken = some (.ok false, .empty) ∧
      (rustToken.invoked tokenRt false).params = [.pointer, .pointer, .i8] ∧
      (declareFunction (some takesToken.signature) ir).machine.params = [.pointer, .i8]) ∧
    Registered tokens registeredToken ∧
    (∃ result s' sig, callRuntime tokenRt 0 registeredToken.dynVals callsToken.args
        callsToken.vtables callsToken.mirSignature emptyLowerer = some (result, s') ∧
      s'.runtimeFunctions.lookup 0 = some sig ∧
      sig.parameters.map (fun p => kind p.2) = [.pointer, .i8] ∧
      registeredToken.trampoline = [.pointer, .pointer, .i8]) :=
  ⟨⟨⟨[("y", .u8)], true, false, none⟩, rfl, rfl, rfl, rfl⟩, .inferred rfl rfl,
    ⟨_, _, _, rfl, rfl, rfl, rfl⟩⟩

end Roto.Lir
