import RotoCompiler.Mir.Ty
import RotoCompiler.TypeChecker.UnionFind

/-!
# From checker types to MIR types (typechecker/info.rs, convert)

`convert` resolves a type, expands the definition of a name at its arguments and
converts what it finds there. The source has no bound on this recursion. `Convertible`
says that the expansion of a type is a finite tree, and `convert` returns exactly on
these types.
-/

namespace Roto.TypeChecker
open Mir Relation

/-- A call's answer, with `none` for an `ice!`, `todo!` or index out of bounds, and the
store it leaves behind. -/
abbrev ConvertResult (α : Type) := Option (Option α × UnionFind)

/-- `iter().map(..).collect()`, left to right. -/
def convertAll {α β : Type} (f : UnionFind → α → ConvertResult β) :
    UnionFind → List α → ConvertResult (List β)
  | uf, [] => some (some [], uf)
  | uf, a :: as =>
    match f uf a with
    | none => none
    | some (none, uf) => some (none, uf)
    | some (some b, uf) =>
      match convertAll f uf as with
      | none => none
      | some (none, uf) => some (none, uf)
      | some (some bs, uf) => some (some (b :: bs), uf)

/-- Give `g` of a converted value. -/
def ConvertResult.map {α β : Type} (g : α → β) (r : ConvertResult α) : ConvertResult β :=
  Option.map (fun p => (p.1.map g, p.2)) r

/-- A named list of types, or a field. -/
def convertNamed {α β : Type} (f : UnionFind → α → ConvertResult β) (uf : UnionFind)
    (p : Identifier × α) : ConvertResult (Identifier × β) :=
  (f uf p.2).map fun b => (p.1, b)

/-- The `match` of `TypeInfo::convert` on the resolved type. -/
def convertResolved (types : TypeMap) (convert : UnionFind → Typ → ConvertResult Ty)
    (uf : UnionFind) : Typ → ConvertResult Ty
  | .var _ => some (some .never, uf)
  | .explicitVar _ => some (none, uf)
  | .never => some (some .unit, uf)
  | .function _ _ => some (none, uf)
  | .intVar _ _ => some (some .i32, uf)
  | .floatVar _ => some (some .f64, uf)
  | .record items =>
    (convertAll (convertNamed convert) uf (items.map fun i => (i.1.node, i.2))).map .record
  | .recordVar _ items =>
    (convertAll (convertNamed convert) uf (items.map fun i => (i.1.node, i.2))).map .record
  | .unit => some (some .unit, uf)
  | .name name arguments =>
    match types.resolveTypeName name with
    | none => some (none, uf)
    | some (.enum typeName enumVariants) =>
      let subs := typeName.arguments.zip arguments
      (convertAll (convertNamed (convertAll convert)) uf
        (enumVariants.map fun v => (v.name, (v.substituteMany subs).fields))).map .enum
    | some (.record typeName fields) =>
      let subs := typeName.arguments.zip arguments
      (convertAll (convertNamed convert) uf
        (fields.map fun f => (f.1.node, f.2.substituteMany subs))).map .record
    | some (.runtime _ typeId) => some (some (.runtime typeId), uf)
    | some (.primitive p) => some (some (.primitive p), uf)
    | some (.list _) =>
      match arguments with
      | [] => some (none, uf)
      | inner :: _ => (convert uf inner).map .list

/-- `TypeInfo::convert`. -/
def convert (types : TypeMap) : ℕ → UnionFind → Typ → ConvertResult Ty
  | 0, _, _ => none
  | fuel + 1, uf, ty =>
    match uf.resolve fuel ty with
    | none => none
    | some (ty, uf) => convertResolved types (convert types fuel) uf ty

/-- The types that `convert` goes on to for a name with this definition. -/
def TypeDefinition.parts (d : TypeDefinition) (arguments : List Typ) : List Typ :=
  match d with
  | .list _ => arguments.take 1
  | d => d.fieldTypes.map fun t => t.substituteMany (d.arguments.zip arguments)

/-- The types that `convert` goes on to from a resolved type. -/
def parts (types : TypeMap) : Typ → List Typ
  | .record items => items.map Prod.snd
  | .recordVar _ items => items.map Prod.snd
  | .name name arguments =>
    match types.resolveTypeName name with
    | none => []
    | some d => d.parts arguments
  | _ => []

/-- The expansion of a type is a finite tree. -/
inductive Convertible (types : TypeMap) (uf : UnionFind) : Typ → Prop where
  | mk {t r : Typ} (hr : uf.Resolves t r) (h : ∀ c ∈ parts types r, Convertible types uf c) :
      Convertible types uf t

variable {types : TypeMap} {uf uf' : UnionFind}

theorem Convertible.of_compressed (hc : uf.Compressed uf') {t : Typ}
    (h : Convertible types uf' t) : Convertible types uf t := by
  induction h with
  | mk hr _ ih => exact .mk ((UnionFind.Resolves.compressed hc).mp hr) ih

/-! ### Lists of conversions -/

section
variable {α β : Type}

/-- Where `f` answers, `g` gives the same answer. -/
def Extended (f g : UnionFind → α → ConvertResult β) : Prop :=
  ∀ uf a r, f uf a = some r → g uf a = some r

variable {f g : UnionFind → α → ConvertResult β}

theorem extended_convertAll (h : Extended f g) : Extended (convertAll f) (convertAll g) := by
  intro uf as r hr
  induction as generalizing uf r with
  | nil => exact hr
  | cons a as ih =>
    simp only [convertAll] at hr ⊢
    cases hf : f uf a with
    | none => simp [hf] at hr
    | some p =>
      rw [h uf a p hf]
      simp only [hf] at hr
      obtain ⟨_ | b, uf₁⟩ := p
      · exact hr
      · simp only at hr ⊢
        cases hl : convertAll f uf₁ as with
        | none => simp [hl] at hr
        | some q =>
          rw [ih uf₁ q hl]
          simpa only [hl] using hr

theorem extended_map {γ : Type} (h : Extended f g) (k : β → γ) :
    Extended (fun uf a => (f uf a).map k) fun uf a => (g uf a).map k := by
  intro uf a r hr
  simp only [ConvertResult.map, Option.map_eq_some_iff] at hr ⊢
  obtain ⟨q, hq, rfl⟩ := hr
  exact ⟨q, h uf a q hq, rfl⟩

theorem extended_convertNamed (h : Extended f g) :
    Extended (convertNamed f) (convertNamed g) :=
  fun uf p r hr => extended_map h (fun b => (p.1, b)) uf p.2 r hr

/-- A family of functions, indexed by fuel, that answers more with more fuel. -/
def Mono (f : ℕ → UnionFind → α → ConvertResult β) : Prop := ∀ n, Extended (f n) (f (n + 1))

theorem Mono.le {f : ℕ → UnionFind → α → ConvertResult β} (hf : Mono f) {n m : ℕ} (hle : n ≤ m)
    {a : α} {r : Option β × UnionFind} (h : f n uf a = some r) : f m uf a = some r := by
  induction hle with
  | refl => exact h
  | step _ ih => exact hf _ uf a r ih

/-- From every compressed form of a store the family answers on `a`, and leaves one behind. -/
def Returns (f : ℕ → UnionFind → α → ConvertResult β) (uf : UnionFind) (a : α) : Prop :=
  ∀ uf₁, uf.Compressed uf₁ → ∃ n r, f n uf₁ a = some r ∧ uf.Compressed r.2

theorem returns_convertAll {f : ℕ → UnionFind → α → ConvertResult β} (hf : Mono f)
    {as : List α} (h : ∀ a ∈ as, Returns f uf a) : Returns (fun n => convertAll (f n)) uf as := by
  induction as with
  | nil => exact fun uf₁ hc => ⟨0, _, rfl, hc⟩
  | cons a as ih =>
    intro uf₁ hc
    obtain ⟨n, p, hn, hcp⟩ := h a (List.mem_cons_self ..) uf₁ hc
    obtain ⟨_ | b, uf₂⟩ := p
    · exact ⟨n, (none, uf₂), by simp [convertAll, hn], hcp⟩
    · obtain ⟨m, q, hm, hcq⟩ := ih (fun x hx => h x (List.mem_cons_of_mem _ hx)) uf₂ hcp
      have hn' := hf.le (Nat.le_max_left n m) hn
      have hm' := Mono.le (fun k => extended_convertAll (hf k)) (Nat.le_max_right n m) hm
      obtain ⟨_ | bs, uf₃⟩ := q
      · exact ⟨max n m, (none, uf₃), by simp [convertAll, hn', hm'], hcq⟩
      · exact ⟨max n m, (some (b :: bs), uf₃),
          by simp [convertAll, hn', hm'], hcq⟩

theorem returns_convertNamed {f : ℕ → UnionFind → α → ConvertResult β} {p : Identifier × α}
    (h : Returns f uf p.2) : Returns (fun n => convertNamed (f n)) uf p := by
  intro uf₁ hc
  obtain ⟨n, r, hn, hcr⟩ := h uf₁ hc
  exact ⟨n, (r.1.map fun b => (p.1, b), r.2),
    by simp [convertNamed, ConvertResult.map, hn], hcr⟩

theorem returns_map {f : ℕ → UnionFind → α → ConvertResult β} {γ : Type} (g : β → γ) {a : α}
    (h : Returns f uf a) : Returns (fun n uf a => (f n uf a).map g) uf a := by
  intro uf₁ hc
  obtain ⟨n, r, hn, hcr⟩ := h uf₁ hc
  exact ⟨n, (r.1.map g, r.2), by simp [ConvertResult.map, hn], hcr⟩

/-- Only the answers matter. -/
theorem returns_of_eq {γ : Type} {f : ℕ → UnionFind → α → ConvertResult β}
    {g : ℕ → UnionFind → γ → ConvertResult β} {a : α} {c : γ}
    (hf : Returns f uf a) (h : ∀ n uf, g n uf c = f n uf a) : Returns g uf c := by
  intro uf₁ hc
  obtain ⟨n, r, hn, hcr⟩ := hf uf₁ hc
  exact ⟨n, r, by rw [h, hn], hcr⟩

/-- What a successful conversion of a list says of its members. -/
theorem convertAll_some {f : UnionFind → α → ConvertResult β} {as : List α} {bs : List β}
    (hcomp : ∀ a ∈ as, ∀ uf₁ b uf₂, f uf₁ a = some (some b, uf₂) → uf₁.Compressed uf₂)
    (h : convertAll f uf as = some (some bs, uf')) :
    uf.Compressed uf' ∧ ∀ a ∈ as, ∃ uf₁ b uf₂, uf.Compressed uf₁ ∧ f uf₁ a = some (some b, uf₂) := by
  induction as generalizing uf bs with
  | nil =>
    obtain ⟨-, rfl⟩ := Prod.mk.inj (Option.some.inj h)
    exact ⟨.refl uf, fun a ha => nomatch ha⟩
  | cons a as ih =>
    simp only [convertAll] at h
    rcases hf : f uf a with _ | ⟨_ | b, uf₁⟩
    · simp [hf] at h
    · simp [hf] at h
    · simp only [hf] at h
      rcases hl : convertAll f uf₁ as with _ | ⟨_ | cs, uf₂⟩
      · simp [hl] at h
      · simp [hl] at h
      · simp only [hl, Option.some.injEq, Prod.mk.injEq] at h
        obtain ⟨-, rfl⟩ := h
        have hc₁ := hcomp a (List.mem_cons_self ..) uf b uf₁ hf
        obtain ⟨hc₂, hmem⟩ := ih (fun x hx => hcomp x (List.mem_cons_of_mem _ hx)) hl
        refine ⟨hc₁.trans hc₂, fun x hx => ?_⟩
        rcases List.mem_cons.mp hx with rfl | hx
        · exact ⟨uf, b, uf₁, .refl uf, hf⟩
        · obtain ⟨uf₃, c, uf₄, hc₃, hfx⟩ := hmem x hx
          exact ⟨uf₃, c, uf₄, hc₁.trans hc₃, hfx⟩

theorem ConvertResult.map_some {γ : Type} {g : β → γ} {r : ConvertResult β} {c : γ}
    (h : r.map g = some (some c, uf)) : ∃ b, r = some (some b, uf) ∧ g b = c := by
  rcases r with _ | ⟨_ | b, uf₁⟩
  · simp [ConvertResult.map] at h
  · simp [ConvertResult.map] at h
  · simp only [ConvertResult.map, Option.map_some, Option.some.injEq, Prod.mk.injEq] at h
    obtain ⟨hc, rfl⟩ := h
    exact ⟨b, rfl, hc⟩

theorem convertNamed_some {f : UnionFind → α → ConvertResult β} {p : Identifier × α}
    {q : Identifier × β} (h : convertNamed f uf p = some (some q, uf')) :
    ∃ b, f uf p.2 = some (some b, uf') := by
  obtain ⟨b, hb, -⟩ := ConvertResult.map_some h
  exact ⟨b, hb⟩

end

/-! ### The match on the resolved type -/

theorem extended_convertResolved {f g : UnionFind → Typ → ConvertResult Ty}
    (h : Extended f g) : Extended (convertResolved types f) (convertResolved types g) := by
  intro uf r q hq
  have hfields := extended_map (extended_convertAll (extended_convertNamed h)) Ty.record
  cases r with
  | record items => exact hfields uf _ q hq
  | recordVar k items => exact hfields uf _ q hq
  | name m arguments =>
    simp only [convertResolved] at hq ⊢
    rcases hd : types.resolveTypeName m with _ | d
    · simpa only [hd] using hq
    · simp only [hd] at hq ⊢
      cases d with
      | enum tn vs =>
        exact extended_map (extended_convertAll (extended_convertNamed (extended_convertAll h)))
          Ty.enum uf _ q hq
      | record tn fs => exact hfields uf _ q hq
      | runtime _ _ => exact hq
      | primitive _ => exact hq
      | list tn =>
        cases arguments with
        | nil => exact hq
        | cons inner rest => exact extended_map h Ty.list uf inner q hq
  | _ => exact hq

section
variable {f : ℕ → UnionFind → Typ → ConvertResult Ty}

theorem returns_const {α β : Type} (a : α) (r : Option β) :
    Returns (fun _ uf (_ : α) => some (r, uf)) uf a :=
  fun _ hc => ⟨0, _, rfl, hc⟩

theorem returns_fields (hf : Mono f) {items : List (Identifier × Typ)}
    (h : ∀ i ∈ items, Returns f uf i.2) :
    Returns (fun n => convertAll (convertNamed (f n))) uf items :=
  returns_convertAll (fun k => extended_convertNamed (hf k)) fun i hi => returns_convertNamed (h i hi)

/-- The conversion of a resolved type returns when the conversions of its parts do. -/
theorem returns_convertResolved (hf : Mono f) {r : Typ}
    (h : ∀ c ∈ parts types r, Returns f uf c) :
    Returns (fun n => convertResolved types (f n)) uf r := by
  cases r with
  | record items =>
    refine returns_map _ (returns_fields hf fun i hi => ?_)
    obtain ⟨j, hj, rfl⟩ := List.mem_map.mp hi
    exact h _ (List.mem_map.mpr ⟨j, hj, rfl⟩)
  | recordVar k items =>
    refine returns_map _ (returns_fields hf fun i hi => ?_)
    obtain ⟨j, hj, rfl⟩ := List.mem_map.mp hi
    exact h _ (List.mem_map.mpr ⟨j, hj, rfl⟩)
  | name m arguments =>
    rcases hd : types.resolveTypeName m with _ | d
    · exact returns_of_eq (returns_const () none) fun n uf => by simp only [convertResolved, hd]
    · simp only [parts, hd] at h
      cases d with
      | enum tn vs =>
        refine returns_of_eq (returns_map Ty.enum (returns_convertAll
          (fun k => extended_convertNamed (extended_convertAll (hf k))) fun i hi =>
            returns_convertNamed (returns_convertAll hf fun t ht => ?_)))
          fun n uf => by simp only [convertResolved, hd]; rfl
        obtain ⟨v, hv, rfl⟩ := List.mem_map.mp hi
        obtain ⟨u, hu, rfl⟩ := List.mem_map.mp ht
        exact h _ (List.mem_map.mpr ⟨u, List.mem_flatMap.mpr ⟨v, hv, hu⟩, rfl⟩)
      | record tn fs =>
        refine returns_of_eq (returns_map Ty.record (returns_fields hf fun i hi => ?_))
          fun n uf => by simp only [convertResolved, hd]; rfl
        obtain ⟨g, hg, rfl⟩ := List.mem_map.mp hi
        exact h _ (List.mem_map.mpr ⟨g.2, List.mem_map.mpr ⟨g, hg, rfl⟩, rfl⟩)
      | runtime _ i =>
        exact returns_of_eq (returns_const () (some (Ty.runtime i)))
          fun n uf => by simp only [convertResolved, hd]
      | primitive p =>
        exact returns_of_eq (returns_const () (some (Ty.primitive p)))
          fun n uf => by simp only [convertResolved, hd]
      | list tn =>
        cases arguments with
        | nil =>
          exact returns_of_eq (returns_const () none)
            fun n uf => by simp only [convertResolved, hd]
        | cons inner rest =>
          exact returns_of_eq
            (returns_map Ty.list (h inner (by simp [TypeDefinition.parts])))
            fun n uf => by simp only [convertResolved, hd]
  | _ => exact returns_const () _

end

/-- What a successful conversion of a resolved type says of its parts. -/
theorem convertResolved_some {f : UnionFind → Typ → ConvertResult Ty} {r : Typ} {ty : Ty}
    (hcomp : ∀ uf₁ c b uf₂, f uf₁ c = some (some b, uf₂) → uf₁.Compressed uf₂)
    (h : convertResolved types f uf r = some (some ty, uf')) :
    uf.Compressed uf' ∧ ∀ c ∈ parts types r,
      ∃ uf₁ b uf₂, uf.Compressed uf₁ ∧ f uf₁ c = some (some b, uf₂) := by
  have hfields : ∀ {items : List (Identifier × Typ)} {ty},
      (convertAll (convertNamed f) uf items).map Ty.record = some (some ty, uf') →
      uf.Compressed uf' ∧ ∀ i ∈ items,
        ∃ uf₁ b uf₂, uf.Compressed uf₁ ∧ f uf₁ i.2 = some (some b, uf₂) := by
    intro items ty h
    obtain ⟨bs, hbs, -⟩ := ConvertResult.map_some h
    obtain ⟨hc, hmem⟩ := convertAll_some (fun i _ uf₁ b uf₂ hb => by
      obtain ⟨c, hc⟩ := convertNamed_some hb
      exact hcomp _ _ _ _ hc) hbs
    refine ⟨hc, fun i hi => ?_⟩
    obtain ⟨uf₁, b, uf₂, hc₁, hb⟩ := hmem i hi
    obtain ⟨c, hb⟩ := convertNamed_some hb
    exact ⟨uf₁, c, uf₂, hc₁, hb⟩
  cases r with
  | var _ | intVar _ _ | floatVar _ | unit | never =>
    obtain ⟨-, rfl⟩ := Prod.mk.inj (Option.some.inj h)
    exact ⟨.refl uf, fun c hc => nomatch hc⟩
  | explicitVar _ => simp [convertResolved] at h
  | function _ _ => simp [convertResolved] at h
  | record items =>
    obtain ⟨hc, hmem⟩ := hfields h
    refine ⟨hc, fun c hcm => ?_⟩
    obtain ⟨i, hi, rfl⟩ := List.mem_map.mp hcm
    exact hmem _ (List.mem_map.mpr ⟨i, hi, rfl⟩)
  | recordVar k items =>
    obtain ⟨hc, hmem⟩ := hfields h
    refine ⟨hc, fun c hcm => ?_⟩
    obtain ⟨i, hi, rfl⟩ := List.mem_map.mp hcm
    exact hmem _ (List.mem_map.mpr ⟨i, hi, rfl⟩)
  | name m arguments =>
    rcases hd : types.resolveTypeName m with _ | d
    · simp [convertResolved, hd] at h
    · simp only [parts, hd]
      cases d with
      | enum tn vs =>
        simp only [convertResolved, hd] at h
        obtain ⟨bs, hbs, -⟩ := ConvertResult.map_some h
        obtain ⟨hc, hmem⟩ := convertAll_some (fun i _ uf₁ b uf₂ hb => by
          obtain ⟨c, hc⟩ := convertNamed_some hb
          exact (convertAll_some (fun t _ uf₁ => hcomp uf₁ t) hc).1) hbs
        refine ⟨hc, fun c hcm => ?_⟩
        obtain ⟨u, hu, rfl⟩ := List.mem_map.mp hcm
        obtain ⟨v, hv, huv⟩ := List.mem_flatMap.mp hu
        obtain ⟨uf₁, b, uf₂, hc₁, hb⟩ := hmem _ (List.mem_map.mpr ⟨v, hv, rfl⟩)
        obtain ⟨cs, hcs⟩ := convertNamed_some hb
        obtain ⟨-, hmem₂⟩ := convertAll_some (fun t _ uf₁ => hcomp uf₁ t) hcs
        obtain ⟨uf₃, b₃, uf₄, hc₃, hb₃⟩ := hmem₂ _ (List.mem_map.mpr ⟨u, huv, rfl⟩)
        exact ⟨uf₃, b₃, uf₄, hc₁.trans hc₃, hb₃⟩
      | record tn fs =>
        simp only [convertResolved, hd] at h
        obtain ⟨hc, hmem⟩ := hfields h
        refine ⟨hc, fun c hcm => ?_⟩
        obtain ⟨t, ht, rfl⟩ := List.mem_map.mp hcm
        obtain ⟨g, hg, rfl⟩ := List.mem_map.mp ht
        exact hmem _ (List.mem_map.mpr ⟨g, hg, rfl⟩)
      | runtime _ _ =>
        simp only [convertResolved, hd] at h
        obtain ⟨-, rfl⟩ := Prod.mk.inj (Option.some.inj h)
        exact ⟨.refl uf, fun c hc => nomatch hc⟩
      | primitive _ =>
        simp only [convertResolved, hd] at h
        obtain ⟨-, rfl⟩ := Prod.mk.inj (Option.some.inj h)
        exact ⟨.refl uf, fun c hc => nomatch hc⟩
      | list tn =>
        cases arguments with
        | nil => simp [convertResolved, hd] at h
        | cons inner rest =>
          simp only [convertResolved, hd] at h
          obtain ⟨b, hb, -⟩ := ConvertResult.map_some h
          refine ⟨hcomp _ _ _ _ hb, fun c hc => ?_⟩
          obtain rfl : c = inner := by simpa [TypeDefinition.parts] using hc
          exact ⟨uf, b, uf', .refl uf, hb⟩

/-- A failed conversion of a list failed at a member. -/
theorem convertAll_none {α β : Type} {f : UnionFind → α → ConvertResult β} {as : List α}
    (h : convertAll f uf as = some (none, uf')) :
    ∃ a ∈ as, ∃ uf₁ uf₂, f uf₁ a = some (none, uf₂) := by
  induction as generalizing uf with
  | nil => simp [convertAll] at h
  | cons a as ih =>
    simp only [convertAll] at h
    rcases hf : f uf a with _ | ⟨_ | b, uf₁⟩
    · simp [hf] at h
    · exact ⟨a, List.mem_cons_self .., uf, uf₁, hf⟩
    · simp only [hf] at h
      rcases hl : convertAll f uf₁ as with _ | ⟨_ | bs, uf₂⟩
      · simp [hl] at h
      · simp only [hl, Option.some.injEq, Prod.mk.injEq, true_and] at h
        subst h
        obtain ⟨x, hx, uf₃, uf₄, hfx⟩ := ih hl
        exact ⟨x, List.mem_cons_of_mem _ hx, uf₃, uf₄, hfx⟩
      · simp [hl] at h

theorem ConvertResult.map_none {α β : Type} {g : α → β} {r : ConvertResult α}
    (h : r.map g = some (none, uf)) : r = some (none, uf) := by
  rcases r with _ | ⟨_ | b, uf₁⟩
  · simp [ConvertResult.map] at h
  · simpa [ConvertResult.map] using h
  · simp [ConvertResult.map] at h

/-- On a type as written in the source a failure comes from one of its parts. -/
theorem convertResolved_none {f : UnionFind → Typ → ConvertResult Ty} {t : Typ}
    (ht : t.wellFormed types none [] = true) (hlist : ∀ n tn,
      types.resolveTypeName n = some (.list tn) → tn.arguments.length = 1)
    (h : convertResolved types f uf t = some (none, uf')) :
    ∃ c ∈ parts types t, ∃ uf₁ uf₂, f uf₁ c = some (none, uf₂) := by
  have hfields : ∀ {items : List (Identifier × Typ)},
      (convertAll (convertNamed f) uf items).map Ty.record = some (none, uf') →
      ∃ i ∈ items, ∃ uf₁ uf₂, f uf₁ i.2 = some (none, uf₂) := by
    intro items h
    obtain ⟨i, hi, uf₁, uf₂, hf⟩ := convertAll_none (ConvertResult.map_none h)
    exact ⟨i, hi, uf₁, uf₂, ConvertResult.map_none hf⟩
  cases t with
  | var _ | intVar _ _ | floatVar _ | recordVar _ _ | function _ _ => simp [Typ.wellFormed] at ht
  | explicitVar _ => simp [Typ.wellFormed] at ht
  | unit => simp [convertResolved] at h
  | never => simp [convertResolved] at h
  | record items =>
    obtain ⟨i, hi, hf⟩ := hfields h
    obtain ⟨j, hj, rfl⟩ := List.mem_map.mp hi
    exact ⟨j.2, List.mem_map.mpr ⟨j, hj, rfl⟩, hf⟩
  | name m arguments =>
    obtain ⟨d, hd, hlen, -⟩ := Typ.wellFormed_name.mp ht
    simp only [parts, hd]
    simp only [convertResolved, hd] at h
    cases d with
    | enum tn vs =>
      obtain ⟨i, hi, uf₁, uf₂, hf⟩ := convertAll_none (ConvertResult.map_none h)
      obtain ⟨v, hv, rfl⟩ := List.mem_map.mp hi
      obtain ⟨c, hc, hfc⟩ := convertAll_none (ConvertResult.map_none hf)
      obtain ⟨u, hu, rfl⟩ := List.mem_map.mp hc
      exact ⟨_, List.mem_map.mpr ⟨u, List.mem_flatMap.mpr ⟨v, hv, hu⟩, rfl⟩, hfc⟩
    | record tn fs =>
      obtain ⟨i, hi, hf⟩ := hfields h
      obtain ⟨g, hg, rfl⟩ := List.mem_map.mp hi
      exact ⟨_, List.mem_map.mpr ⟨g.2, List.mem_map.mpr ⟨g, hg, rfl⟩, rfl⟩, hf⟩
    | runtime _ _ => simp at h
    | primitive _ => simp at h
    | list tn =>
      cases arguments with
      | nil =>
        have := hlist m tn hd
        simp only [TypeDefinition.arguments, List.length_nil] at hlen
        omega
      | cons inner rest =>
        exact ⟨inner, by simp [TypeDefinition.parts], uf, uf', ConvertResult.map_none h⟩

/-! ### `convert` returns exactly on finite expansions -/

theorem convert_mono (types : TypeMap) : Mono (convert types) := by
  intro n
  induction n with
  | zero => intro uf t r h; cases h
  | succ n ih =>
    intro uf t r h
    rw [convert] at h ⊢
    cases ht : uf.resolve n t with
    | none => simp [ht] at h
    | some p =>
      rw [UnionFind.resolve_mono ht (Nat.le_succ n)]
      simp only [ht] at h
      exact extended_convertResolved ih p.2 p.1 r h

theorem Convertible.returns {t : Typ} (h : Convertible types uf t) :
    Returns (convert types) uf t := by
  induction h with
  | @mk t r hr _ ih =>
    intro uf₁ hc
    obtain ⟨n, uf₂, hn⟩ := UnionFind.resolve_of_resolves
      ((UnionFind.Resolves.compressed hc).mpr hr)
    have hc₂ := hc.trans (UnionFind.resolve_spec hn).2
    obtain ⟨m, q, hm, hcq⟩ := returns_convertResolved (convert_mono types) ih uf₂ hc₂
    refine ⟨max n m + 1, q, ?_, hcq⟩
    have hm' := Mono.le (fun k => extended_convertResolved (convert_mono types k))
      (Nat.le_max_right n m) hm
    simp only [convert, UnionFind.resolve_mono hn (Nat.le_max_left n m), hm']

theorem convertible_of_convert {fuel : ℕ} {t : Typ} {ty : Ty}
    (h : convert types fuel uf t = some (some ty, uf')) :
    Convertible types uf t ∧ uf.Compressed uf' := by
  induction fuel generalizing uf uf' t ty with
  | zero => cases h
  | succ fuel ih =>
    simp only [convert] at h
    cases ht : uf.resolve fuel t with
    | none => simp [ht] at h
    | some p =>
      obtain ⟨r, uf₁⟩ := p
      simp only [ht] at h
      obtain ⟨hr, hc⟩ := UnionFind.resolve_spec ht
      obtain ⟨hc₁, hmem⟩ := convertResolved_some (fun _ _ _ _ hf => (ih hf).2) h
      refine ⟨.mk hr fun c hcm => ?_, hc.trans hc₁⟩
      obtain ⟨uf₂, b, uf₃, hc₂, hf⟩ := hmem c hcm
      exact (ih hf).1.of_compressed (hc.trans hc₂)

section
variable (D : Declarations)

theorem Declarations.params_length {n : ResolvedName} {d : TypeDefinition} {args : List Typ}
    (hd : D.types.resolveTypeName n = some d) (hlen : d.arguments.length = args.length) :
    d.params.length = args.length := by
  rw [← hlen, (D.wf hd).params, List.length_map]

theorem Declarations.parts_eq {n : ResolvedName} {d : TypeDefinition}
    (hd : D.types.resolveTypeName n = some d) (hl : d.isList = false) (args : List Typ) :
    d.parts args = d.fieldTypes.map fun t => t.substituteMany (paramSubs d.params args) := by
  rw [← (D.wf hd).subs]
  cases d with
  | list tn => cases hl
  | _ => rfl

theorem Declarations.wellFormed_parts {bound : Option ℕ} {t c : Typ}
    (ht : t.wellFormed D.types bound [] = true) (hc : c ∈ parts D.types t) :
    c.wellFormed D.types bound [] = true := by
  cases t with
  | var _ | intVar _ _ | floatVar _ | function _ _ | explicitVar _ | unit | never => cases hc
  | record items =>
    obtain ⟨f, hf, rfl⟩ := List.mem_map.mp hc
    exact Typ.wellFormed_record.mp ht f hf
  | recordVar n items =>
    simp only [Typ.wellFormed, Bool.and_eq_true, Typ.wellFormedFields_iff] at ht
    obtain ⟨f, hf, rfl⟩ := List.mem_map.mp hc
    exact ht.2 f hf
  | name m args =>
    obtain ⟨d, hd, hlen, ha⟩ := Typ.wellFormed_name.mp ht
    simp only [parts, hd] at hc
    cases hl : d.isList with
    | true =>
      cases d with
      | list tn => exact ha c (List.mem_of_mem_take hc)
      | _ => cases hl
    | false =>
      rw [D.parts_eq hd hl] at hc
      obtain ⟨t, ht, rfl⟩ := List.mem_map.mp hc
      exact wellFormed_substituteMany ((D.wf hd).fields t ht) (D.params_length hd hlen) ha

/-- `convert` reaches no `ice!` or `todo!` on a type as written in the source. -/
theorem Declarations.convert_ne_none {fuel : ℕ} {t : Typ}
    (ht : t.wellFormed D.types none [] = true) :
    convert D.types fuel uf t ≠ some (none, uf') := by
  induction fuel generalizing uf uf' t with
  | zero => intro h; cases h
  | succ fuel ih =>
    intro h
    have hv : t.varIndex = none := by cases t <;> simp [Typ.wellFormed, Typ.varIndex] at ht ⊢
    simp only [convert, UnionFind.resolve, hv] at h
    obtain ⟨c, hc, uf₁, uf₂, hf⟩ := convertResolved_none ht
      (fun n tn hn => (D.wf hn).list rfl) h
    exact ih (D.wellFormed_parts ht hc) hf

/-- On a type as written in the source, `convert` gives a type exactly when the expansion
is finite. -/
theorem Declarations.convertible_iff {t : Typ} (ht : t.wellFormed D.types none [] = true) :
    (∃ fuel ty uf', convert D.types fuel uf t = some (some ty, uf')) ↔
      Convertible D.types uf t := by
  constructor
  · rintro ⟨fuel, ty, uf', h⟩
    exact (convertible_of_convert h).1
  · intro h
    obtain ⟨n, ⟨_ | ty, uf'⟩, hn, -⟩ := h.returns uf (.refl uf)
    · exact absurd hn (D.convert_ne_none ht)
    · exact ⟨n, ty, uf', hn⟩

end

end Roto.TypeChecker
