import RotoCompiler.Lir.Boundary

/-!
# Calling conventions agree

The parameters are filtered in different ways on the two sides of the boundary. A type of
the script stands for a Rust type when it has been checked against it or has been made from
it; then it is passed in the same way, unless it is a registered type of size zero or one
with the name of a primitive.
-/

namespace Roto.Lir
open Mir TypeChecker Roto.Value

variable {rt : Rt} {R : Registry} {uf uf' : UnionFind} {types : TypeMap}

/-! ### What a conversion gives -/

theorem ConvertsTo.resolved {t r : Typ} {ty : Ty} (h : ConvertsTo types uf t ty)
    (hr : uf.Resolves t r) : ∃ fuel uf₁ uf₂, uf.Compressed uf₁ ∧
      convertResolved types (convert types fuel) uf₁ r = some (some ty, uf₂) := by
  obtain ⟨fuel, uf₁, uf₂, hc, h⟩ := h
  cases fuel with
  | zero => cases h
  | succ fuel =>
    simp only [convert] at h
    cases hres : uf₁.resolve fuel t with
    | none => simp [hres] at h
    | some p =>
      obtain ⟨q, uf₃⟩ := p
      simp only [hres] at h
      obtain ⟨hq, hc'⟩ := UnionFind.resolve_spec hres
      obtain rfl := UnionFind.Resolves.unique ((UnionFind.Resolves.compressed hc).mpr hr) hq
      exact ⟨fuel, uf₃, uf₂, hc.trans hc', h⟩

theorem convertAll_forall₂ {α β : Type} {f : UnionFind → α → ConvertResult β} {as : List α}
    {bs : List β} (hcomp : ∀ a uf₁ b uf₂, f uf₁ a = some (some b, uf₂) → uf₁.Compressed uf₂)
    (h : convertAll f uf as = some (some bs, uf')) :
    List.Forall₂ (fun a b => ∃ uf₁ uf₂, uf.Compressed uf₁ ∧ f uf₁ a = some (some b, uf₂)) as bs := by
  induction as generalizing uf uf' bs with
  | nil =>
    obtain ⟨hbs, -⟩ := Prod.mk.inj (Option.some.inj h)
    obtain rfl := Option.some.inj hbs
    exact .nil
  | cons a as ih =>
    simp only [convertAll] at h
    rcases hf : f uf a with _ | ⟨_ | b, uf₁⟩
    · simp [hf] at h
    · simp [hf] at h
    · simp only [hf] at h
      rcases hl : convertAll f uf₁ as with _ | ⟨_ | cs, uf₂⟩
      · simp [hl] at h
      · simp [hl] at h
      · simp only [hl, Option.some.injEq, Prod.mk.injEq] at h
        obtain ⟨rfl, -⟩ := h
        have hc₁ := hcomp a uf b uf₁ hf
        refine .cons ⟨uf, uf₁, .refl uf, hf⟩ ((ih hl).imp ?_)
        rintro x y ⟨uf₃, uf₄, hc₃, hx⟩
        exact ⟨uf₃, uf₄, hc₁.trans hc₃, hx⟩

theorem convert_compressed {fuel : ℕ} {t : Typ} {ty : Ty}
    (h : convert types fuel uf t = some (some ty, uf')) : uf.Compressed uf' :=
  (convertible_of_convert h).2

/-- The variants of an enum are converted one by one. -/
theorem ConvertsTo.enum {t : Typ} {n : ResolvedName} {args : List Typ} {ty : Ty} {tn : TypeName}
    {variants : List EnumVariant} (h : ConvertsTo types uf t ty)
    (hr : uf.Resolves t (.name n args)) (hd : types.resolveTypeName n = some (.enum tn variants)) :
    ∃ vs, ty = .enum vs ∧ List.Forall₂ (fun v w => List.Forall₂ (ConvertsTo types uf)
      (v.substituteMany (tn.arguments.zip args)).fields w.2) variants vs := by
  obtain ⟨fuel, uf₁, uf₂, hc, h⟩ := h.resolved hr
  simp only [convertResolved, hd] at h
  obtain ⟨vs, hvs, rfl⟩ := ConvertResult.map_some h
  have hcomp : ∀ (p : Identifier × List Typ) uf₁ q uf₂,
      convertNamed (convertAll (convert types fuel)) uf₁ p = some (some q, uf₂) →
        uf₁.Compressed uf₂ := by
    intro p uf₁ q uf₂ hp
    obtain ⟨b, hb⟩ := convertNamed_some hp
    exact (convertAll_some (fun _ _ _ _ _ => convert_compressed) hb).1
  have hall := convertAll_forall₂ hcomp hvs
  rw [List.forall₂_map_left_iff] at hall
  refine ⟨vs, rfl, hall.imp ?_⟩
  rintro v w ⟨uf₃, uf₄, hc₃, hw⟩
  obtain ⟨b, hb, rfl⟩ := ConvertResult.map_some hw
  have hfields := convertAll_forall₂ (fun _ _ _ _ => convert_compressed) hb
  refine hfields.imp ?_
  rintro x y ⟨uf₅, uf₆, hc₅, hx⟩
  exact ⟨fuel, uf₅, uf₆, (hc.trans hc₃).trans hc₅, hx⟩

/-! ### Types that stand for Rust types -/

/-- No type parameter occurs in the type. -/
def Closed (t : Typ) : Prop := ∀ s u, t.substitute (.explicitVar s) u = t

/-- The type of the script stands for the Rust type. -/
inductive Means (R : Registry) (uf : UnionFind) : RustTy → Typ → Prop where
  | unit {t : Typ} (hr : uf.Resolves t .unit) : Means R uf .unit t
  | primitive {p : Primitive} {t r : Typ} (hr : uf.Resolves t r)
      (hp : defaulted r = .named p.ident []) : Means R uf (.primitive p) t
  | registered {τ : RustTy} {id : ℕ} {t : Typ} {n : ResolvedName} {args : List Typ}
      (hτ : RustTy.registered τ = some id) (hr : uf.Resolves t (.name n args))
      (hd : ∀ d, R.types.resolveTypeName n = some d →
        (∃ m, d = .runtime m id) ∨ (∃ p, d = .primitive p) ∨ ∃ tn, d = .list tn) :
      Means R uf τ t
  | erasedList {t : Typ} {args : List Typ} (hr : uf.Resolves t (.named "List" args)) :
      Means R uf .erasedList t
  | option {τ : RustTy} {t a : Typ} (hr : uf.Resolves t (.named "Option" [a]))
      (ha : Means R uf τ a) : Means R uf (.option τ) t
  | verdict {τ σ : RustTy} {t a b : Typ} (hr : uf.Resolves t (.named "Verdict" [a, b]))
      (hclosed : Closed a) (ha : Means R uf τ a) (hb : Means R uf σ b) :
      Means R uf (.verdict τ σ) t
  | result {τ σ : RustTy} {t a b : Typ} (hr : uf.Resolves t (.named "Result" [a, b]))
      (hclosed : Closed a) (ha : Means R uf τ a) (hb : Means R uf σ b) :
      Means R uf (.result τ σ) t
  | list {τ : RustTy} {t a : Typ} (hr : uf.Resolves t (.named "List" [a]))
      (ha : Means R uf τ a) : Means R uf (.list τ) t

theorem enum_inhabited {variants : List (Identifier × List Ty)} {v : Identifier × List Ty}
    (hv : v ∈ variants) (h : ∀ t ∈ v.2, (layoutOf rt t).isSome) :
    (layoutOf rt (.enum variants)).isSome := by
  obtain ⟨ls, hls⟩ := layoutsOf_isSome h
  rw [Option.isSome_iff_ne_none, layoutOf]
  intro hnone
  have hv := (variantsLayout_eq_none.mp hnone).2 v hv
  rw [variantLayout, hls] at hv
  cases hv

/-! ### The MIR type of a type that stands for a Rust type -/

theorem ConvertsTo.const {t r : Typ} {ty : Ty} {c : Option Ty} (h : ConvertsTo types uf t ty)
    (hr : uf.Resolves t r) (hc : ∀ f uf₁, convertResolved types f uf₁ r = some (c, uf₁)) :
    c = some ty := by
  obtain ⟨fuel, uf₁, uf₂, -, h⟩ := h.resolved hr
  rw [hc] at h
  exact (Prod.mk.inj (Option.some.inj h)).1

theorem ConvertsTo.unit {t : Typ} {ty : Ty} (h : ConvertsTo types uf t ty)
    (hr : uf.Resolves t .unit) : ty = .unit :=
  (Option.some.inj (h.const hr fun _ _ => rfl)).symm

theorem ConvertsTo.runtime {t : Typ} {ty : Ty} {n m : ResolvedName} {args : List Typ} {id : ℕ}
    (h : ConvertsTo types uf t ty) (hr : uf.Resolves t (.name n args))
    (hn : types.resolveTypeName n = some (.runtime m id)) : ty = .runtime id :=
  (Option.some.inj (h.const hr fun _ _ => by simp only [convertResolved, hn])).symm

theorem ConvertsTo.primitiveName {t : Typ} {ty : Ty} {n : ResolvedName} {args : List Typ}
    {p : Primitive} (h : ConvertsTo types uf t ty) (hr : uf.Resolves t (.name n args))
    (hn : types.resolveTypeName n = some (.primitive p)) : ty = .primitive p :=
  (Option.some.inj (h.const hr fun _ _ => by simp only [convertResolved, hn])).symm

theorem ConvertsTo.list {t : Typ} {ty : Ty} {n : ResolvedName} {args : List Typ} {tn : TypeName}
    (h : ConvertsTo types uf t ty) (hr : uf.Resolves t (.name n args))
    (hn : types.resolveTypeName n = some (.list tn)) : ∃ inner, ty = .list inner := by
  obtain ⟨fuel, uf₁, uf₂, -, h⟩ := h.resolved hr
  simp only [convertResolved, hn] at h
  cases args with
  | nil => simp at h
  | cons a args =>
    obtain ⟨b, -, rfl⟩ := ConvertResult.map_some h
    exact ⟨b, rfl⟩

theorem ConvertsTo.declared {t : Typ} {ty : Ty} {n : ResolvedName} {args : List Typ}
    (h : ConvertsTo types uf t ty) (hr : uf.Resolves t (.name n args)) :
    ∃ d, types.resolveTypeName n = some d := by
  cases hn : types.resolveTypeName n with
  | none =>
    have hnone : none = some ty := h.const hr fun _ _ => by simp only [convertResolved, hn]
    cases hnone
  | some d => exact ⟨d, rfl⟩

/-- Number literals default to the types that they convert to. -/
theorem ConvertsTo.primitive {t r : Typ} {ty : Ty} {p : Primitive}
    (h : ConvertsTo R.types uf t ty) (hr : uf.Resolves t r)
    (hp : defaulted r = .named p.ident []) : ty = .primitive p := by
  have hident : ∀ s, Typ.named s [] = .named p.ident [] → s = p.ident := by
    intro s hs
    simpa [Typ.named] using hs
  cases r with
  | intVar n signed =>
    obtain rfl := (Option.some.inj (h.const hr fun _ _ => rfl)).symm
    have heq : "i32" = p.ident := hident _ hp
    cases p with
    | int k s => cases k <;> cases s <;> first | rfl | exact absurd heq (by decide)
    | float s => cases s <;> exact absurd heq (by decide)
    | _ => exact absurd heq (by decide)
  | floatVar n =>
    obtain rfl := (Option.some.inj (h.const hr fun _ _ => rfl)).symm
    have heq : "f64" = p.ident := hident _ hp
    cases p with
    | int k s => cases k <;> cases s <;> exact absurd heq (by decide)
    | float s => cases s <;> first | rfl | exact absurd heq (by decide)
    | _ => exact absurd heq (by decide)
  | name n args =>
    obtain ⟨rfl, rfl⟩ := Typ.name.inj hp
    exact h.primitiveName hr (R.primitive p)
  | _ => cases hp

/-- The first payload of a type with two parameters. -/
theorem substituteMany_first {a b : Typ} {s s' : Identifier} (hclosed : Closed a) :
    (Typ.explicitVar s).substituteMany [(.explicitVar s, a), (.explicitVar s', b)] = a := by
  simp only [Typ.substituteMany, List.foldl_cons, List.foldl_nil, Typ.substitute, if_true]
  exact hclosed s' b

/-- Every Rust type has a value in the script, as far as `Value` knows. -/
theorem Means.inhabited {τ : RustTy} {t : Typ} {ty : Ty} (h : Means R uf τ t)
    (hc : ConvertsTo R.types uf t ty) : (layoutOf rt ty).isSome := by
  have pair : ∀ {t a b : Typ} {n tn : ResolvedName} {ty : Ty} {v₁ v₂ s s' : Identifier}
      {f₂ : List Typ}, uf.Resolves t (.name n [a, b]) → Closed a →
      R.types.resolveTypeName n = some (.enum ⟨tn, [.explicitVar s, .explicitVar s']⟩
        [⟨v₁, [.explicitVar s]⟩, ⟨v₂, f₂⟩]) →
      (∀ {ty : Ty}, ConvertsTo R.types uf a ty → (layoutOf rt ty).isSome) →
      ConvertsTo R.types uf t ty → (layoutOf rt ty).isSome := by
    intro t a b n tn ty v₁ v₂ s s' f₂ hr hclosed hd ih hc
    obtain ⟨vs, rfl, hvs⟩ := hc.enum hr hd
    obtain ⟨w, ws, hw, -, rfl⟩ := List.forall₂_cons_left_iff.mp hvs
    have hfields : (EnumVariant.substituteMany ⟨v₁, [.explicitVar s]⟩
        ([.explicitVar s, .explicitVar s'].zip [a, b])).fields = [a] := by
      show [(Typ.explicitVar s).substituteMany [(.explicitVar s, a), (.explicitVar s', b)]] = [a]
      rw [substituteMany_first hclosed]
    rw [hfields] at hw
    have hall : ∀ x ∈ w.2, (layoutOf rt x).isSome := by
      obtain ⟨e, es, he, hes, heq⟩ := List.forall₂_cons_left_iff.mp hw
      obtain rfl := List.forall₂_nil_left_iff.mp hes
      rw [heq]
      simpa using ih he
    exact enum_inhabited (List.mem_cons_self ..) hall
  induction h generalizing ty with
  | unit hr =>
    obtain rfl := hc.unit hr
    rfl
  | primitive hr hp =>
    obtain rfl := hc.primitive hr hp
    rfl
  | registered _ hr hd =>
    obtain ⟨d, hn⟩ := hc.declared hr
    rcases hd d hn with ⟨m, rfl⟩ | ⟨p, rfl⟩ | ⟨tn, rfl⟩
    · obtain rfl := hc.runtime hr hn
      rfl
    · obtain rfl := hc.primitiveName hr hn
      rfl
    · obtain ⟨inner, rfl⟩ := hc.list hr hn
      rfl
  | erasedList hr =>
    obtain ⟨inner, rfl⟩ := hc.list hr R.list
    rfl
  | option hr _ _ =>
    obtain ⟨vs, rfl, hvs⟩ := hc.enum hr R.option
    obtain ⟨w, ws, -, hws, rfl⟩ := List.forall₂_cons_left_iff.mp hvs
    obtain ⟨w', ws', hw', -, rfl⟩ := List.forall₂_cons_left_iff.mp hws
    have hnil : w'.2 = [] := List.forall₂_nil_left_iff.mp hw'
    have hall : ∀ x ∈ w'.2, (layoutOf rt x).isSome := by
      rw [hnil]
      exact fun x hx => absurd hx List.not_mem_nil
    exact enum_inhabited (List.mem_cons_of_mem w (List.mem_cons_self ..)) hall
  | verdict hr hclosed _ _ iha _ => exact pair hr hclosed R.verdict iha hc
  | result hr hclosed _ _ iha _ => exact pair hr hclosed R.result iha hc
  | list hr _ _ =>
    obtain ⟨inner, rfl⟩ := hc.list hr R.list
    rfl

/-! ### How a type is passed -/

theorem isReferenceType_primitive (rt : Rt) (p : Primitive) :
    isReferenceType rt (.primitive p) = some (byValue p).isNone := by
  have hpos := layoutOf_primitive_pos rt p
  have hlayout : layoutOf rt (.primitive p) = some (rt.primitiveLayout p) := rfl
  simp only [isReferenceType, hlayout, bind, Option.bind, if_neg hpos.ne']
  cases p with
  | int k s => cases s <;> rfl
  | float s => cases s <;> rfl
  | _ => rfl

theorem lowerType_primitive (rt : Rt) (p : Primitive) :
    (lowerType rt (.primitive p)).map kind = some ((byValue p).getD .pointer) := by
  have hpos := isZeroSized_of_pos (layoutOf_primitive_pos rt p)
  have hlayout : layoutOf rt (.primitive p) = some (rt.primitiveLayout p) := rfl
  have href := isReferenceType_primitive rt p
  unfold lowerType
  rw [hlayout, Option.any_some, hpos, if_neg (by simp)]
  cases p with
  | int k s => cases k <;> cases s <;> rfl
  | float s => cases s <;> rfl
  | string => simp [href, kind, byValue]
  | ipAddr => simp [href, kind, byValue]
  | ipPrefix => simp [href, kind, byValue]
  | _ => rfl

theorem lowerType_list (inner : Ty) : lowerType rt (.list inner) = some .pointer := by
  have hpos := isZeroSized_of_pos rt.list_pos
  have hlayout : layoutOf rt (.list inner) = some (rt.runtimeType rt.erasedList).layout := rfl
  unfold lowerType
  rw [hlayout, Option.any_some, hpos, if_neg (by simp)]

theorem lowerType_runtime (rt : Rt) (id : ℕ) :
    lowerType rt (.runtime id) =
      if (rt.runtimeType id).layout.size = 0 then none else some .pointer := by
  have hlayout : layoutOf rt (.runtime id) = some (rt.runtimeType id).layout := rfl
  unfold lowerType
  rw [hlayout, Option.any_some]
  simp [Layout.isZeroSized]

theorem isReferenceType_enum {variants : List (Identifier × List Ty)}
    (h : (layoutOf rt (.enum variants)).isSome) :
    isReferenceType rt (.enum variants) = some true := by
  obtain ⟨l, hl⟩ := Option.isSome_iff_exists.mp h
  simp only [isReferenceType, hl, bind, Option.bind, if_neg (enum_pos hl).ne']
  rfl

theorem lowerType_enum {variants : List (Identifier × List Ty)}
    (h : (layoutOf rt (.enum variants)).isSome) : lowerType rt (.enum variants) = some .pointer := by
  have href := isReferenceType_enum h
  obtain ⟨l, hl⟩ := Option.isSome_iff_exists.mp h
  unfold lowerType
  rw [hl, Option.any_some, isZeroSized_of_pos (enum_pos hl), if_neg (by simp)]
  simp only [href, if_true]

theorem isReferenceType_list (inner : Ty) : isReferenceType rt (.list inner) = some true := by
  have hpos := rt.list_pos
  have hlayout : layoutOf rt (.list inner) = some (rt.runtimeType rt.erasedList).layout := rfl
  simp only [isReferenceType, hlayout, bind, Option.bind, if_neg hpos.ne']
  rfl

theorem isReferenceType_runtime (rt : Rt) (id : ℕ) :
    isReferenceType rt (.runtime id) = some (decide ((rt.runtimeType id).layout.size ≠ 0)) := by
  have hlayout : layoutOf rt (.runtime id) = some (rt.runtimeType id).layout := rfl
  simp only [isReferenceType, hlayout, bind, Option.bind]
  split_ifs with h
  · simp [h]
  · simp [h]

/-- What a compound Rust type stands for is passed by pointer. -/
theorem Means.shape {τ : RustTy} {t : Typ} {ty : Ty} (h : Means R uf τ t) (rt : Rt)
    (hc : ConvertsTo R.types uf t ty) :
    (τ = .unit ∧ ty = .unit) ∨ (∃ p, τ = .primitive p ∧ ty = .primitive p) ∨
      (∃ id, RustTy.registered τ = some id) ∨
      τ.asParam = some .pointer ∧ τ.returned rt = .aggregate ∧
        lowerType rt ty = some .pointer ∧ isReferenceType rt ty = some true := by
  have hin : (layoutOf rt ty).isSome := h.inhabited hc
  cases h with
  | unit hr => exact .inl ⟨rfl, hc.unit hr⟩
  | primitive hr hp => exact .inr (.inl ⟨_, rfl, hc.primitive hr hp⟩)
  | registered hτ _ _ => exact .inr (.inr (.inl ⟨_, hτ⟩))
  | erasedList hr =>
    obtain ⟨inner, rfl⟩ := hc.list hr R.list
    exact .inr (.inr (.inr ⟨rfl, rfl, lowerType_list inner, isReferenceType_list inner⟩))
  | option hr _ =>
    obtain ⟨vs, rfl, -⟩ := hc.enum hr R.option
    exact .inr (.inr (.inr ⟨rfl, rfl, lowerType_enum hin, isReferenceType_enum hin⟩))
  | verdict hr _ _ _ =>
    obtain ⟨vs, rfl, -⟩ := hc.enum hr R.verdict
    exact .inr (.inr (.inr ⟨rfl, rfl, lowerType_enum hin, isReferenceType_enum hin⟩))
  | result hr _ _ _ =>
    obtain ⟨vs, rfl, -⟩ := hc.enum hr R.result
    exact .inr (.inr (.inr ⟨rfl, rfl, lowerType_enum hin, isReferenceType_enum hin⟩))
  | list hr _ =>
    obtain ⟨inner, rfl⟩ := hc.list hr R.list
    exact .inr (.inr (.inr ⟨rfl, rfl, lowerType_list inner, isReferenceType_list inner⟩))

theorem Means.passed {τ : RustTy} {t : Typ} {ty : Ty} (h : Means R uf τ t) (rt : Rt)
    (hc : ConvertsTo R.types uf t ty) (hreg : RustTy.registered τ = none) :
    (lowerType rt ty).map kind = τ.asParam := by
  rcases h.shape rt hc with ⟨rfl, rfl⟩ | ⟨p, rfl, rfl⟩ | ⟨id, hid⟩ | ⟨hτ, -, hty, -⟩
  · rfl
  · exact lowerType_primitive rt p
  · rw [hreg] at hid
    cases hid
  · rw [hτ, hty]
    rfl

/-! ### Checked types stand for their Rust types -/

theorem defaulted_name {r : Typ} {n : ResolvedName} {args : List Typ}
    (h : defaulted r = .name n args) :
    r = .name n args ∨ args = [] ∧ ∃ p : Primitive, n = ⟨ScopeRef.GLOBAL, p.ident⟩ := by
  cases r with
  | intVar _ _ =>
    obtain ⟨rfl, rfl⟩ := Typ.name.inj h
    exact .inr ⟨rfl, .int .signed .i32, rfl⟩
  | floatVar _ =>
    obtain ⟨rfl, rfl⟩ := Typ.name.inj h
    exact .inr ⟨rfl, .float .f64, rfl⟩
  | _ => exact .inl h

theorem CheckResult.of_ok {b : Bool} {e : TypeMismatch} {r : UnionFind}
    (h : Value.CheckResult.of b e uf = some (.ok (), r)) : b = true ∧ uf = r := by
  cases b with
  | false => cases h
  | true => exact ⟨rfl, (Prod.mk.inj (Option.some.inj h)).2⟩

theorem CheckResult.andThen_ok {r : Value.CheckResult} {k : UnionFind → Value.CheckResult}
    (h : r.andThen k = some (.ok (), uf')) :
    ∃ uf₁, r = some (.ok (), uf₁) ∧ k uf₁ = some (.ok (), uf') := by
  unfold Value.CheckResult.andThen at h
  split at h
  · exact ⟨_, rfl, h⟩
  · next hne => exact absurd h (hne uf')

/-- The type behind a registered Rust type is registered. -/
def IsRegistered (R : Registry) (uf : UnionFind) (t : Typ) (id : ℕ) : Prop :=
  ∃ n args m, uf.Resolves t (.name n args) ∧ R.types.resolveTypeName n = some (.runtime m id)

theorem checkOne_ok {ident : Identifier} {r : Typ} {e : TypeMismatch} {check : Typ → Value.CheckResult}
    (h : checkOne ident (defaulted r) e uf check = some (.ok (), uf')) :
    ∃ a, r = .named ident [a] ∧ check a = some (.ok (), uf') := by
  unfold checkOne at h
  split at h
  · next n a hname =>
    split_ifs at h with hn
    · rcases defaulted_name hname with rfl | ⟨hnil, -⟩
      · exact ⟨a, by rw [hn]; rfl, h⟩
      · cases hnil
    · cases h
  · cases h

theorem checkTwo_ok {ident : Identifier} {r : Typ} {e : TypeMismatch}
    {check : Typ → Typ → Value.CheckResult}
    (h : checkTwo ident (defaulted r) e uf check = some (.ok (), uf')) :
    ∃ a b, r = .named ident [a, b] ∧ check a b = some (.ok (), uf') := by
  unfold checkTwo at h
  split at h
  · next n a b hname =>
    split_ifs at h with hn
    · rcases defaulted_name hname with rfl | ⟨hnil, -⟩
      · exact ⟨a, b, by rw [hn]; rfl, h⟩
      · cases hnil
    · cases h
  · cases h

/-- What a check found out about a type. -/
structure Checked (R : Registry) (uf : UnionFind) (τ : RustTy) (t : Typ) (uf₂ : UnionFind) :
    Prop where
  means : Means R uf τ t
  compressed : uf.Compressed uf₂
  registered : ∀ id, RustTy.registered τ = some id → IsRegistered R uf t id

/-- The arguments of a known type are known. -/
theorem known_args {t : Typ} {n : ResolvedName} {args : List Typ} (hv : uf.Valid R.types)
    (ht : uf.Known R.types t) (hr : uf.Resolves t (.name n args)) :
    ∀ a ∈ args, uf.Known R.types a :=
  (Typ.wellFormed_name.mp (hv.resolves ht hr)).choose_spec.2.2

theorem check_resolves {fuel : ℕ} {τ : RustTy} {t : Typ} {uf₁ : UnionFind}
    {x : Except TypeMismatch Unit × UnionFind} (hc : uf.Compressed uf₁)
    (h : checkRotoType types fuel τ uf₁ t = some x) :
    ∃ r uf₂, uf₁.resolve fuel t = some (r, uf₂) ∧ uf.Resolves t r ∧ uf.Compressed uf₂ := by
  cases hres : uf₁.resolve fuel t with
  | none =>
    unfold checkRotoType at h
    simp [hres] at h
  | some q =>
    obtain ⟨r, uf₂⟩ := q
    obtain ⟨hr, hc'⟩ := UnionFind.resolve_spec hres
    exact ⟨r, uf₂, rfl, (UnionFind.Resolves.compressed hc).mp hr, hc.trans hc'⟩

theorem checked_of_check {fuel : ℕ} {τ : RustTy} {t : Typ} {uf₁ uf₂ : UnionFind}
    (hv : uf.Valid R.types) (ht : uf.Known R.types t) (hc : uf.Compressed uf₁)
    (h : checkRotoType R.types fuel τ uf₁ t = some (.ok (), uf₂)) : Checked R uf τ t uf₂ := by
  obtain ⟨r, uf₃, hres, hr, hc⟩ := check_resolves hc h
  induction τ generalizing t uf₁ uf₂ uf₃ r with
  | leaf | dynVal | vtable | erasedList =>
    unfold checkRotoType at h
    simp [hres] at h
  | unit =>
    unfold checkRotoType at h
    simp only [hres] at h
    obtain ⟨hunit, rfl⟩ := CheckResult.of_ok h
    have hr' : r = .unit := by cases r <;> simp [defaulted, Typ.named] at hunit ⊢
    exact ⟨.unit (hr' ▸ hr), hc, fun _ hid => by cases hid⟩
  | primitive p =>
    unfold checkRotoType at h
    simp only [hres] at h
    obtain ⟨hp, rfl⟩ := CheckResult.of_ok h
    exact ⟨.primitive hr (of_decide_eq_true hp), hc, fun _ hid => by cases hid⟩
  | val id =>
    unfold checkRotoType at h
    simp only [hres] at h
    split at h
    · next n args hname =>
      split at h
      · cases h
      · next m id' hn =>
        obtain ⟨hid, rfl⟩ := CheckResult.of_ok h
        obtain rfl : id = id' := of_decide_eq_true hid
        rcases defaulted_name hname with rfl | ⟨-, p, rfl⟩
        · have hd : ∀ d, R.types.resolveTypeName n = some d →
              (∃ m, d = .runtime m id) ∨ (∃ p, d = .primitive p) ∨ ∃ tn, d = .list tn := by
            intro d hd
            rw [hn] at hd
            exact .inl ⟨m, (Option.some.inj hd).symm⟩
          refine ⟨.registered rfl hr hd, hc, fun i hi => ?_⟩
          obtain rfl := Option.some.inj hi
          exact ⟨n, args, m, hr, hn⟩
        · rw [R.primitive p] at hn
          cases hn
      · cases h
    · cases h
  | option τ ih =>
    unfold checkRotoType at h
    simp only [hres] at h
    obtain ⟨a, rfl, ha⟩ := checkOne_ok h
    obtain ⟨r', uf₄, hres', hr', hc'⟩ := check_resolves hc ha
    have hka := known_args hv ht hr a (by simp)
    have hchecked := ih hka hc ha r' uf₄ hres' hr' hc'
    exact ⟨.option hr hchecked.means, hchecked.compressed, fun _ hid => by cases hid⟩
  | list τ ih =>
    unfold checkRotoType at h
    simp only [hres] at h
    obtain ⟨a, rfl, ha⟩ := checkOne_ok h
    obtain ⟨r', uf₄, hres', hr', hc'⟩ := check_resolves hc ha
    have hka := known_args hv ht hr a (by simp)
    have hchecked := ih hka hc ha r' uf₄ hres' hr' hc'
    exact ⟨.list hr hchecked.means, hchecked.compressed, fun _ hid => by cases hid⟩
  | verdict τ σ ihτ ihσ =>
    unfold checkRotoType at h
    simp only [hres] at h
    obtain ⟨a, b, rfl, h⟩ := checkTwo_ok h
    obtain ⟨uf₄, ha, hb⟩ := CheckResult.andThen_ok h
    obtain ⟨ra, ufa, hresa, hra, hca⟩ := check_resolves hc ha
    have hka := known_args hv ht hr a (by simp)
    have hcheckeda := ihτ hka hc ha ra ufa hresa hra hca
    obtain ⟨rb, ufb, hresb, hrb, hcb⟩ := check_resolves hcheckeda.compressed hb
    have hcheckedb := ihσ (known_args hv ht hr b (by simp)) hcheckeda.compressed hb rb ufb hresb hrb hcb
    exact ⟨.verdict hr (fun _ _ => substitute_of_wellFormed hka) hcheckeda.means hcheckedb.means,
      hcheckedb.compressed, fun _ hid => by cases hid⟩
  | result τ σ ihτ ihσ =>
    unfold checkRotoType at h
    simp only [hres] at h
    obtain ⟨a, b, rfl, h⟩ := checkTwo_ok h
    obtain ⟨uf₄, ha, hb⟩ := CheckResult.andThen_ok h
    obtain ⟨ra, ufa, hresa, hra, hca⟩ := check_resolves hc ha
    have hka := known_args hv ht hr a (by simp)
    have hcheckeda := ihτ hka hc ha ra ufa hresa hra hca
    obtain ⟨rb, ufb, hresb, hrb, hcb⟩ := check_resolves hcheckeda.compressed hb
    have hcheckedb := ihσ (known_args hv ht hr b (by simp)) hcheckeda.compressed hb rb ufb hresb hrb hcb
    exact ⟨.result hr (fun _ _ => substitute_of_wellFormed hka) hcheckeda.means hcheckedb.means,
      hcheckedb.compressed, fun _ hid => by cases hid⟩

/-! ### Roto functions -/

/-- Both sides return through the out pointer, or both return the same directly. -/
theorem Checked.returned {τ : RustTy} {t : Typ} {ty : Ty} {uf₂ : UnionFind}
    (h : Checked R uf τ t uf₂) (hc : ConvertsTo R.types uf t ty) (rt : Rt) :
    isReferenceType rt ty = some true ∧ τ.returned rt = .aggregate ∨
      isReferenceType rt ty = some false ∧ τ.returned rt ≠ .aggregate ∧
        τ.returned rt = (lowerType rt ty).elim .nothing fun irTy => .scalar (kind irTy) := by
  rcases h.means.shape rt hc with ⟨rfl, rfl⟩ | ⟨p, rfl, rfl⟩ | ⟨id, hid⟩ | ⟨-, hτ, -, href⟩
  · exact .inr ⟨rfl, by simp [RustTy.returned], rfl⟩
  · have href := isReferenceType_primitive rt p
    have hlower := lowerType_primitive rt p
    cases hp : byValue p with
    | none => exact .inl ⟨by rw [href, hp]; rfl, by simp [RustTy.returned, hp]⟩
    | some k =>
      rw [hp] at hlower
      obtain ⟨irTy, hir, hk⟩ := Option.map_eq_some_iff.mp hlower
      have hkind : kind irTy = k := hk
      exact .inr ⟨by rw [href, hp]; rfl, by simp [RustTy.returned, hp],
        by rw [hir]; simp [RustTy.returned, hp, hkind]⟩
  · obtain ⟨n, args, m, hr, hn⟩ := h.registered id hid
    obtain rfl := hc.runtime hr hn
    have href := isReferenceType_runtime rt id
    have hlower := lowerType_runtime rt id
    have hτ : τ.returned rt =
        if (rt.runtimeType id).layout.size = 0 then .nothing else .aggregate := by
      cases τ <;> cases hid <;> rfl
    by_cases hsize : (rt.runtimeType id).layout.size = 0
    · rw [if_pos hsize] at hτ hlower
      exact .inr ⟨by rw [href]; simp [hsize], by simp [hτ], by rw [hτ, hlower]; rfl⟩
    · rw [if_neg hsize] at hτ
      exact .inl ⟨by rw [href]; simp [hsize], hτ⟩
  · exact .inl ⟨href, hτ⟩

theorem length_filterMap_le {α β : Type} {f g : α → Option β} {as : List α}
    (h : ∀ a ∈ as, f a = none ∨ (g a).isSome) :
    (as.filterMap f).length ≤ (as.filterMap g).length := by
  induction as with
  | nil => exact le_rfl
  | cons a as ih =>
    obtain ⟨ha, has⟩ := List.forall_mem_cons.mp h
    have ih := ih has
    cases hf : f a with
    | none =>
      rw [List.filterMap_cons_none hf]
      cases hg : g a with
      | none => rwa [List.filterMap_cons_none hg]
      | some y =>
        rw [List.filterMap_cons_some hg, List.length_cons]
        omega
    | some x =>
      obtain ⟨y, hg⟩ : ∃ y, g a = some y := by simpa [hf, Option.isSome_iff_exists] using ha
      rw [List.filterMap_cons_some hf, List.filterMap_cons_some hg, List.length_cons,
        List.length_cons]
      omega

/-- Where one side leaves out whatever the other does, they agree exactly when they agree on
each parameter. -/
theorem filterMap_eq_iff {α β : Type} {f g : α → Option β} {as : List α}
    (h : ∀ a ∈ as, f a = none ∨ (g a).isSome) :
    as.filterMap f = as.filterMap g ↔ ∀ a ∈ as, f a = g a := by
  induction as with
  | nil => simp
  | cons a as ih =>
    obtain ⟨ha, has⟩ := List.forall_mem_cons.mp h
    rw [List.forall_mem_cons, ← ih has]
    cases hf : f a with
    | none =>
      rw [List.filterMap_cons_none hf]
      cases hg : g a with
      | none => simp [List.filterMap_cons_none hg]
      | some y =>
        have hle := length_filterMap_le has
        have hne : as.filterMap f ≠ y :: as.filterMap g := by
          intro heq
          rw [heq, List.length_cons] at hle
          omega
        simp [List.filterMap_cons_some hg, hne]
    | some x =>
      obtain ⟨y, hg⟩ : ∃ y, g a = some y := by simpa [hf, Option.isSome_iff_exists] using ha
      rw [List.filterMap_cons_some hf, List.filterMap_cons_some hg]
      simp [hg]

/-- Two ways to make the parameters of two lists of the same length. -/
theorem filterMap_zip_eq_iff {α β γ : Type} {f : α × β → Option γ} {g : α → Option γ}
    {as : List α} {bs : List β} (hlen : as.length = bs.length)
    (h : ∀ p ∈ as.zip bs, f p = none ∨ (g p.1).isSome) :
    (as.zip bs).filterMap f = as.filterMap g ↔ ∀ p ∈ as.zip bs, f p = g p.1 := by
  have hg : as.filterMap g = (as.zip bs).filterMap fun p => g p.1 := by
    conv_lhs => rw [← @List.map_fst_zip _ _ as bs hlen.le, List.filterMap_map]
    rfl
  rw [hg]
  exact filterMap_eq_iff h

theorem itemParameters_types {vars : List Mir.Var} {tys : List Ty} {ps : List (Identifier × IrType)}
    (hlen : vars.length = tys.length) (h : itemParameters rt (vars.zip tys) = some ps) :
    ps.map (·.2) = tys.filterMap (lowerType rt) := by
  induction vars generalizing tys ps with
  | nil =>
    obtain rfl := List.length_eq_zero_iff.mp hlen.symm
    obtain rfl := Option.some.inj h
    rfl
  | cons var vars ih =>
    cases tys with
    | nil => cases hlen
    | cons ty tys =>
      rw [List.zip_cons_cons, itemParameters] at h
      have hlen := Nat.succ.inj hlen
      cases hty : lowerType rt ty with
      | none =>
        simp only [hty] at h
        rw [ih hlen h, List.filterMap_cons_none hty]
      | some irTy =>
        simp only [hty] at h
        cases hvar : var.kind with
        | tmp idx => simp [hvar] at h
        | explicit x =>
          simp only [hvar] at h
          obtain ⟨qs, hqs, rfl⟩ := Option.map_eq_some_iff.mp h
          rw [List.map_cons, ih hlen hqs, List.filterMap_cons_some hty]

theorem itemParameters_kinds {vars : List Mir.Var} {tys : List Ty} {ps : List (Identifier × IrType)}
    (hlen : vars.length = tys.length) (h : itemParameters rt (vars.zip tys) = some ps) :
    (ps.map fun p => kind p.2) = tys.filterMap fun ty => (lowerType rt ty).map kind := by
  have htypes := congrArg (List.map kind) (itemParameters_types hlen h)
  rw [List.map_map, List.map_filterMap] at htypes
  exact htypes

theorem checkEach_ok {fuel i : ℕ} {args : List RustTy} {ts : List Typ} {uf₁ uf₂ : UnionFind}
    (hv : uf.Valid R.types) (hk : ∀ t ∈ ts, uf.Known R.types t) (hlen : args.length = ts.length)
    (hc : uf.Compressed uf₁) (h : checkEach R.types fuel i (args.zip ts) uf₁ = some (.ok (), uf₂)) :
    List.Forall₂ (fun τ t => ∃ uf', Checked R uf τ t uf') args ts ∧ uf.Compressed uf₂ := by
  induction args generalizing i ts uf₁ with
  | nil =>
    obtain rfl := List.length_eq_zero_iff.mp hlen.symm
    obtain ⟨-, rfl⟩ := Prod.mk.inj (Option.some.inj h)
    exact ⟨.nil, hc⟩
  | cons τ args ih =>
    cases ts with
    | nil => cases hlen
    | cons t ts =>
      obtain ⟨ht, hts⟩ := List.forall_mem_cons.mp hk
      rw [List.zip_cons_cons, checkEach] at h
      unfold checkIn at h
      rcases hcheck : checkRotoType R.types fuel τ uf₁ t with _ | ⟨e | x, uf₃⟩
      · simp [hcheck] at h
      · simp [hcheck] at h
      · simp only [hcheck] at h
        have hchecked := checked_of_check hv ht hc hcheck
        obtain ⟨hall, hc'⟩ := ih hts (Nat.succ.inj hlen) hchecked.compressed h
        exact ⟨.cons ⟨uf₃, hchecked⟩ hall, hc'⟩

/-- What `get_function` has checked when it succeeds. -/
theorem getFunction_ok {fuel : ℕ} {functions : List (String × FunctionInfo)} {name : String}
    {F : RotoFunc} {returnByRef : Bool} {sig : TypeChecker.Signature} {ir : Signature}
    {uf₁ uf₂ : UnionFind} (hv : uf.Valid R.types) (hk : ∀ t ∈ sig.parameterTypes, uf.Known R.types t)
    (hret : uf.Known R.types sig.returnType) (hc : uf.Compressed uf₁)
    (hmem : functions.lookup s!"pkg.{name}" = some (declareFunction (some sig) ir))
    (h : getFunction R.types fuel functions uf₁ name F = some (.ok returnByRef, uf₂)) :
    returnByRef = ir.returnPtr ∧ F.args.length = sig.parameterTypes.length ∧
      List.Forall₂ (fun τ t => ∃ uf', Checked R uf τ t uf') F.args sig.parameterTypes ∧
      ∃ uf', Checked R uf F.ret sig.returnType uf' := by
  unfold getFunction at h
  simp only [hmem, declareFunction] at h
  unfold RotoFunc.checkArgs at h
  by_cases hlen : F.args.length = sig.parameterTypes.length
  · rw [if_neg (by simpa using hlen)] at h
    rcases hargs : checkEach R.types fuel 0 (F.args.zip sig.parameterTypes) uf₁ with _ | ⟨e | x, uf₃⟩
    · simp [hargs] at h
    · simp [hargs] at h
    · obtain ⟨hall, hc'⟩ := checkEach_ok hv hk hlen hc hargs
      simp only [hargs] at h
      unfold checkIn at h
      rcases hcheck : checkRotoType R.types fuel F.ret uf₃ sig.returnType with _ | ⟨e | x, uf₄⟩
      · simp [hcheck] at h
      · simp [hcheck] at h
      · simp only [hcheck, Option.some.injEq, Prod.mk.injEq, Except.ok.injEq] at h
        exact ⟨h.1.symm, hlen, hall, uf₄, checked_of_check hv hret hc' hcheck⟩
  · rw [if_pos hlen] at h
    simp at h

theorem Checked.param {τ : RustTy} {t : Typ} {ty : Ty} {uf₂ : UnionFind}
    (h : Checked R uf τ t uf₂) (hc : ConvertsTo R.types uf t ty) (rt : Rt) :
    ((lowerType rt ty).map kind = none ∨ τ.asParam.isSome) ∧
      ((lowerType rt ty).map kind = τ.asParam ↔
        ∀ id, RustTy.registered τ = some id → (rt.runtimeType id).layout.size ≠ 0) := by
  cases hreg : RustTy.registered τ with
  | none =>
    have hpassed := h.means.passed rt hc hreg
    refine ⟨?_, by simp [hpassed]⟩
    rw [hpassed]
    cases τ.asParam <;> simp
  | some id =>
    obtain ⟨n, args, m, hr, hn⟩ := h.registered id hreg
    obtain rfl := hc.runtime hr hn
    have hτ : τ.asParam = some .pointer := by
      cases τ <;> cases hreg <;> rfl
    rw [lowerType_runtime, hτ]
    refine ⟨.inr rfl, ?_⟩
    by_cases hsize : (rt.runtimeType id).layout.size = 0 <;> simp [hsize, kind]

theorem forall₂_comp {α β γ : Type} {P : α → β → Prop} {Q : β → γ → Prop} {as : List α}
    {bs : List β} {cs : List γ} (hab : List.Forall₂ P as bs) (hbc : List.Forall₂ Q bs cs) :
    List.Forall₂ (fun a c => ∃ b, P a b ∧ Q b c) as cs := by
  induction hab generalizing cs with
  | nil =>
    obtain rfl := List.forall₂_nil_left_iff.mp hbc
    exact .nil
  | @cons a b as bs hab _ ih =>
    obtain ⟨c, cs, hb, hcs, rfl⟩ := List.forall₂_cons_left_iff.mp hbc
    exact .cons ⟨b, hab, hb⟩ (ih hcs)

theorem itemSignature_some {vars : List Mir.Var} {sig : Mir.Signature} {ir : Signature}
    (h : itemSignature rt vars sig = some (some ir)) :
    itemParameters rt (vars.zip sig.parameterTypes) = some ir.parameters ∧ ir.context = true ∧
      (ir.returnType, ir.returnPtr) = (match isReferenceType rt sig.returnType with
        | some true => (none, true)
        | some false => (lowerType rt sig.returnType, false)
        | none => (none, false)) := by
  unfold itemSignature at h
  split_ifs at h with hnone
  · cases Option.some.inj h
  cases hparams : itemParameters rt (vars.zip sig.parameterTypes) with
  | none =>
    rw [hparams] at h
    cases h
  | some params =>
    rw [hparams] at h
    have h := Option.some.inj (Option.some.inj h)
    subst h
    exact ⟨rfl, rfl, rfl⟩

/-- For a function that is retrieved, the type of the pointer that `invoke` casts to is the
declared signature, if and only if no parameter is a registered type of size zero; and the
result is returned through the out pointer exactly when it is a value in memory. -/
theorem retrieved_agrees_iff (hv : uf.Valid R.types) (f : LoweredFunction R uf) {uf₁ uf₂ : UnionFind}
    (hc : uf.Compressed uf₁) {ir : Signature}
    (hir : itemSignature rt f.parameters f.mirSignature = some (some ir))
    {fuel : ℕ} {functions : List (String × FunctionInfo)} {name : String} {F : RotoFunc}
    (hmem : functions.lookup s!"pkg.{name}" = some (declareFunction (some f.signature) ir))
    {returnByRef : Bool}
    (hget : getFunction R.types fuel functions uf₁ name F = some (.ok returnByRef, uf₂)) :
    (returnByRef = true ↔ F.ret.returned rt = .aggregate) ∧
      (F.invoked rt returnByRef = (declareFunction (some f.signature) ir).machine ↔
        ∀ τ ∈ F.args, ∀ id, RustTy.registered τ = some id →
          (rt.runtimeType id).layout.size ≠ 0) := by
  obtain ⟨rfl, hlen, hargs, uf₃, hret⟩ :=
    getFunction_ok hv f.known f.known_return hc hmem hget
  obtain ⟨hparams, hcontext, hreturn⟩ := itemSignature_some hir
  have hlen' : F.args.length = f.mirSignature.parameterTypes.length :=
    hlen.trans f.converted.length_eq
  -- each argument is checked and converted
  have hpairs : ∀ p ∈ F.args.zip f.mirSignature.parameterTypes,
      ((lowerType rt p.2).map kind = none ∨ p.1.asParam.isSome) ∧
        ((lowerType rt p.2).map kind = p.1.asParam ↔
          ∀ id, RustTy.registered p.1 = some id → (rt.runtimeType id).layout.size ≠ 0) := by
    rintro ⟨τ, ty⟩ hp
    obtain ⟨t, ⟨uf', hchecked⟩, hconverts⟩ := List.forall₂_zip (forall₂_comp hargs f.converted) hp
    exact hchecked.param hconverts rt
  have hkinds : (ir.parameters.map fun p => kind p.2) =
      (F.args.zip f.mirSignature.parameterTypes).filterMap fun p => (lowerType rt p.2).map kind := by
    rw [itemParameters_kinds f.length_parameters hparams]
    conv_lhs => rw [← @List.map_snd_zip _ _ F.args _ hlen'.ge, List.filterMap_map]
    rfl
  have hagree : F.args.filterMap RustTy.asParam = (ir.parameters.map fun p => kind p.2) ↔
      ∀ τ ∈ F.args, ∀ id, RustTy.registered τ = some id →
        (rt.runtimeType id).layout.size ≠ 0 := by
    rw [hkinds, eq_comm, filterMap_zip_eq_iff hlen' fun p hp => (hpairs p hp).1]
    have hfst : F.args = (F.args.zip f.mirSignature.parameterTypes).map Prod.fst :=
      (List.map_fst_zip hlen'.le).symm
    constructor
    · intro h τ hτ
      rw [hfst] at hτ
      obtain ⟨p, hp, rfl⟩ := List.mem_map.mp hτ
      exact (hpairs p hp).2.mp (h p hp)
    · intro h p hp
      exact (hpairs p hp).2.mpr (h p.1 (List.of_mem_zip hp).1)
  rcases hret.returned f.converted_return rt with ⟨href, hagg⟩ | ⟨href, hagg, hdirect⟩
  · rw [href] at hreturn
    obtain ⟨htype, hptr⟩ := Prod.mk.inj hreturn
    refine ⟨by simp [hptr, hagg], ?_⟩
    rw [← hagree]
    simp [RotoFunc.invoked, declareFunction, hptr, hcontext, htype]
  · rw [href] at hreturn
    obtain ⟨htype, hptr⟩ := Prod.mk.inj hreturn
    refine ⟨by simp [hptr, hagg], ?_⟩
    rw [← hagree]
    simp [RotoFunc.invoked, declareFunction, hptr, hcontext, htype, hdirect]

end Roto.Lir
