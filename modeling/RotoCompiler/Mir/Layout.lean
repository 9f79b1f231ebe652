import RotoCompiler.Mir.Ty
import RotoCompiler.Runtime.Layout

/-!
# Layouts of MIR types (mir/ty.rs, runtime/mod.rs)

`layout_of` gives nothing for a type without values. The runtime is a parameter: it has
the layout and the movability of every registered type, also of the built-in ones that
are implemented in Rust.
-/

namespace Roto.Mir

inductive Movability where
  | value | copy | cloneDrop
  deriving DecidableEq, Repr

structure RuntimeType where
  movability : Movability
  layout : Layout

/-- The types of a runtime, by `TypeId`, and the ids of the Rust types behind the
built-in types. -/
structure Rt where
  runtimeType : ℕ → RuntimeType
  rotoString : ℕ
  erasedList : ℕ
  ipAddr : ℕ
  ipPrefix : ℕ
  string_clone : (runtimeType rotoString).movability = .cloneDrop
  list_clone : (runtimeType erasedList).movability = .cloneDrop
  string_pos : 0 < (runtimeType rotoString).layout.size
  list_pos : 0 < (runtimeType erasedList).layout.size
  ipAddr_pos : 0 < (runtimeType ipAddr).layout.size
  ipPrefix_pos : 0 < (runtimeType ipPrefix).layout.size

variable (rt : Rt)

/-- `Primitive::layout`. -/
def Rt.primitiveLayout : Primitive → Layout
  | .int _ .i8 => .one
  | .int _ .i16 => .two
  | .int _ .i32 => .four
  | .int _ .i64 => .eight
  | .float .f32 => .four
  | .float .f64 => .eight
  | .bool => .one
  | .char => .four
  | .asn => .four
  | .string => (rt.runtimeType rt.rotoString).layout
  | .ipAddr => (rt.runtimeType rt.ipAddr).layout
  | .ipPrefix => (rt.runtimeType rt.ipPrefix).layout

mutual

/-- `Pool::layout_of`. -/
def layoutOf : Ty → Option Layout
  | .never => none
  | .unit => some .unit
  | .primitive p => some (rt.primitiveLayout p)
  | .runtime typeId => some (rt.runtimeType typeId).layout
  | .record fields => do
    let builder ← addFields .new fields
    return builder.finish
  | .enum variants => variantsLayout none variants
  | .list _ => some (rt.runtimeType rt.erasedList).layout

/-- The loop over the fields of a record. -/
def addFields (builder : LayoutBuilder) : List (Identifier × Ty) → Option LayoutBuilder
  | [] => some builder
  | (_, t) :: fields => do
    let l ← layoutOf t
    addFields (builder.add l).2 fields

/-- The `try_fold` over the fields of a variant. -/
def addTypes (builder : LayoutBuilder) : List Ty → Option LayoutBuilder
  | [] => some builder
  | t :: ts => do
    let l ← layoutOf t
    addTypes (builder.add l).2 ts

/-- The loop over the variants of an enum; an uninhabited one is not considered. -/
def variantsLayout (layout : Option Layout) : List (Identifier × List Ty) → Option Layout
  | [] => layout
  | (_, fields) :: variants =>
    match addTypes .tagged fields with
    | none => variantsLayout layout variants
    | some builder =>
      let variantLayout := builder.finish
      variantsLayout (some (match layout with
        | none => variantLayout
        | some l => l.union variantLayout)) variants

end

/-- `Pool::is_reference_type`. -/
def isReferenceType (ty : Ty) : Option Bool := do
  let l ← layoutOf rt ty
  if l.size = 0 then return false
  match ty with
  | .never => none
  | .record _ => return true
  | .enum _ => return true
  | .primitive .string => return true
  | .primitive .ipAddr => return true
  | .primitive .ipPrefix => return true
  | .list _ => return true
  | .runtime _ => return true
  | .unit => return false
  | .primitive _ => return false

/-- The layouts of some types, if all of them are inhabited. -/
def layoutsOf (tys : List Ty) : Option (List Layout) := tys.mapM (layoutOf rt)

variable {rt}

/-! ### One layout for each type -/

section
variable {ls : List Layout}

theorem layoutsOf_cons {t : Ty} {tys : List Ty} (h : layoutsOf rt (t :: tys) = some ls) :
    ∃ l ls', layoutOf rt t = some l ∧ layoutsOf rt tys = some ls' ∧ ls = l :: ls' := by
  rw [layoutsOf, List.mapM_cons] at h
  obtain ⟨l, hl, h⟩ := Option.bind_eq_some_iff.mp h
  obtain ⟨ls', hls', h⟩ := Option.bind_eq_some_iff.mp h
  exact ⟨l, ls', hl, hls', (Option.some.inj h).symm⟩

theorem layoutsOf_getElem? {tys : List Ty} (h : layoutsOf rt tys = some ls) (i : ℕ) :
    ls[i]? = tys[i]?.bind (layoutOf rt) := by
  induction tys generalizing ls i with
  | nil =>
    obtain rfl := Option.some.inj h
    rfl
  | cons t tys ih =>
    obtain ⟨l, ls', hl, hls', rfl⟩ := layoutsOf_cons h
    cases i with
    | zero => simpa using hl.symm
    | succ i => simpa using ih hls' i

theorem layoutsOf_length {tys : List Ty} (h : layoutsOf rt tys = some ls) :
    ls.length = tys.length := by
  induction tys generalizing ls with
  | nil =>
    obtain rfl := Option.some.inj h
    rfl
  | cons t tys ih =>
    obtain ⟨l, ls', -, hls', rfl⟩ := layoutsOf_cons h
    simp [ih hls']

theorem layoutOf_isSome {tys : List Ty} (h : (layoutsOf rt tys).isSome) :
    ∀ t ∈ tys, (layoutOf rt t).isSome := by
  obtain ⟨ls, hls⟩ := Option.isSome_iff_exists.mp h
  intro t ht
  obtain ⟨i, hi, rfl⟩ := List.mem_iff_getElem.mp ht
  have hget := layoutsOf_getElem? hls i
  rw [List.getElem?_eq_getElem hi, List.getElem?_eq_getElem (layoutsOf_length hls ▸ hi)] at hget
  exact Option.isSome_iff_exists.mpr ⟨_, hget.symm⟩

theorem layoutsOf_isSome {tys : List Ty} (h : ∀ t ∈ tys, (layoutOf rt t).isSome) :
    ∃ ls, layoutsOf rt tys = some ls := by
  induction tys with
  | nil => exact ⟨[], rfl⟩
  | cons t tys ih =>
    obtain ⟨ht, htys⟩ := List.forall_mem_cons.mp h
    obtain ⟨l, hl⟩ := Option.isSome_iff_exists.mp ht
    obtain ⟨ls, hls⟩ := ih htys
    refine ⟨l :: ls, ?_⟩
    rw [layoutsOf] at hls ⊢
    rw [List.mapM_cons, hl, hls]
    rfl

end

theorem addTypes_eq (builder : LayoutBuilder) (tys : List Ty) :
    addTypes rt builder tys = (layoutsOf rt tys).map builder.addAll := by
  induction tys generalizing builder with
  | nil => rfl
  | cons t tys ih =>
    rw [addTypes, layoutsOf, List.mapM_cons]
    cases layoutOf rt t with
    | none => rfl
    | some l =>
      have ih := ih (builder.add l).2
      rw [layoutsOf] at ih
      simp only [bind, Option.bind, ih]
      cases List.mapM (layoutOf rt) tys <;> rfl

theorem addFields_eq (builder : LayoutBuilder) (fields : List (Identifier × Ty)) :
    addFields rt builder fields = addTypes rt builder (fields.map (·.2)) := by
  induction fields generalizing builder with
  | nil => rfl
  | cons f fields ih =>
    rw [addFields, List.map_cons, addTypes]
    exact congrArg _ (funext fun l => ih _)

theorem layoutOf_record (fields : List (Identifier × Ty)) :
    layoutOf rt (.record fields) =
      (layoutsOf rt (fields.map (·.2))).map fun ls => (LayoutBuilder.new.addAll ls).finish := by
  rw [layoutOf, addFields_eq, addTypes_eq]
  cases layoutsOf rt (fields.map (·.2)) <;> rfl

/-- The layout of one variant: the tag byte and then its fields. -/
def variantLayout (rt : Rt) (tys : List Ty) : Option Layout :=
  (layoutsOf rt tys).map fun ls => (LayoutBuilder.tagged.addAll ls).finish

theorem variantsLayout_cons (layout : Option Layout) (name : Identifier) (tys : List Ty)
    (variants : List (Identifier × List Ty)) :
    variantsLayout rt layout ((name, tys) :: variants) =
      variantsLayout rt (match variantLayout rt tys, layout with
        | none, layout => layout
        | some v, none => some v
        | some v, some l => some (l.union v)) variants := by
  rw [variantsLayout, addTypes_eq, variantLayout]
  cases layoutsOf rt tys with
  | none => rfl
  | some ls => cases layout <;> rfl

/-- What was collected of the layout of an enum only grows. -/
theorem variantsLayout_mono {variants : List (Identifier × List Ty)} {l l' : Layout}
    (h : variantsLayout rt (some l) variants = some l') :
    l.size ≤ l'.size ∧ l.align ≤ l'.align := by
  induction variants generalizing l with
  | nil =>
    obtain rfl := Option.some.inj h
    exact ⟨le_rfl, le_rfl⟩
  | cons v variants ih =>
    obtain ⟨name, tys⟩ := v
    rw [variantsLayout_cons] at h
    cases hv : variantLayout rt tys with
    | none =>
      rw [hv] at h
      exact ih h
    | some v =>
      rw [hv] at h
      have hle := ih h
      have hunion := @Layout.le_union_left l v
      exact ⟨hunion.1.trans hle.1, hunion.2.trans hle.2⟩

/-- The layout of an enum has room for each of its inhabited variants. -/
theorem variantLayout_le {variants : List (Identifier × List Ty)} {layout : Option Layout}
    {l v : Layout} {name : Identifier} {tys : List Ty}
    (h : variantsLayout rt layout variants = some l) (hmem : (name, tys) ∈ variants)
    (hv : variantLayout rt tys = some v) : v.size ≤ l.size ∧ v.align ≤ l.align := by
  induction variants generalizing layout with
  | nil => cases hmem
  | cons w variants ih =>
    obtain ⟨name', tys'⟩ := w
    rw [variantsLayout_cons] at h
    rcases List.mem_cons.mp hmem with heq | hmem
    · obtain ⟨rfl, rfl⟩ := Prod.mk.inj heq
      rw [hv] at h
      cases layout with
      | none => exact variantsLayout_mono h
      | some l₀ =>
        have hle := variantsLayout_mono h
        have hunion := @Layout.le_union_right l₀ v
        exact ⟨hunion.1.trans hle.1, hunion.2.trans hle.2⟩
    · exact ih h hmem

/-- An enum is inhabited if and only if one of its variants is. -/
theorem variantsLayout_eq_none {variants : List (Identifier × List Ty)} {layout : Option Layout} :
    variantsLayout rt layout variants = none ↔
      layout = none ∧ ∀ v ∈ variants, variantLayout rt v.2 = none := by
  induction variants generalizing layout with
  | nil => simp [variantsLayout]
  | cons v variants ih =>
    obtain ⟨name, tys⟩ := v
    rw [variantsLayout_cons, ih]
    cases hv : variantLayout rt tys with
    | none => simp [hv]
    | some v => cases layout <;> simp [hv]

/-! ### Types of size zero -/

theorem isZeroSized_of_pos {l : Layout} (h : 0 < l.size) : l.isZeroSized = false := by
  simp only [Layout.isZeroSized, decide_eq_false_iff_not]
  omega

theorem layoutOf_primitive_pos (rt : Rt) (p : Primitive) : 0 < (rt.primitiveLayout p).size := by
  cases p with
  | int _ size => cases size <;> exact Nat.zero_lt_succ _
  | float size => cases size <;> exact Nat.zero_lt_succ _
  | string => exact rt.string_pos
  | ipAddr => exact rt.ipAddr_pos
  | ipPrefix => exact rt.ipPrefix_pos
  | _ => exact Nat.zero_lt_succ _

theorem enum_pos {variants : List (Identifier × List Ty)} {l : Layout}
    (h : layoutOf rt (.enum variants) = some l) : 0 < l.size := by
  rw [layoutOf] at h
  have hsome : ¬ ∀ v ∈ variants, variantLayout rt v.2 = none := by
    intro hnone
    rw [variantsLayout_eq_none.mpr ⟨rfl, hnone⟩] at h
    cases h
  push Not at hsome
  obtain ⟨⟨name, tys⟩, hmem, hv⟩ := hsome
  obtain ⟨v, hv⟩ := Option.ne_none_iff_exists'.mp hv
  obtain ⟨ls, -, rfl⟩ := Option.map_eq_some_iff.mp hv
  have hle := (variantLayout_le h hmem hv).1
  have hfinish := (LayoutBuilder.finish_mono (b := LayoutBuilder.tagged.addAll ls)).1
  have hmono := (@LayoutBuilder.addAll_mono LayoutBuilder.tagged ls).1
  have htag : 0 < LayoutBuilder.tagged.size := by decide
  omega

end Roto.Mir
