import RotoCompiler.Lir.EqSizes
import RotoCompiler.Lir.Discriminants

/-!
# Values with the same bytes

An enum of more than 256 variants has values that only differ in the discriminant and are the
same bytes in memory, and so has every type with such an enum somewhere in it.
-/

namespace Roto.Lir
open Mir
open Lib (Memory)

variable (rt : Rt)

/-! ### Everywhere in a type -/

/-- The type has values, and they take space. -/
def takesSpace (ty : Ty) : Bool := (layoutOf rt ty).any fun l => 0 < l.size

variable (P : Ty → Bool)

mutual

/-- The type is one of some types, and so are the types of all fields in it. -/
def everywhere : Ty → Bool
  | .record fields => P (.record fields) && everywhereFields fields
  | .enum variants => P (.enum variants) && everywhereVariants variants
  | .unit => P .unit
  | .never => P .never
  | .primitive p => P (.primitive p)
  | .list t => P (.list t)
  | .runtime typeId => P (.runtime typeId)

def everywhereFields : List (Identifier × Ty) → Bool
  | [] => true
  | (_, t) :: fields => everywhere t && everywhereFields fields

def everywhereTypes : List Ty → Bool
  | [] => true
  | t :: tys => everywhere t && everywhereTypes tys

def everywhereVariants : List (Identifier × List Ty) → Bool
  | [] => true
  | (_, tys) :: variants => everywhereTypes tys && everywhereVariants variants

end

variable {rt P}

theorem takesSpace_iff {ty : Ty} : takesSpace rt ty = true ↔ Sized rt ty := by
  simp [takesSpace, Sized, Option.any_eq_true]

theorem everywhereFields_eq (fields : List (Identifier × Ty)) :
    everywhereFields P fields = (fields.map (·.2)).all (everywhere P) := by
  induction fields with
  | nil => rfl
  | cons f fields ih => rw [everywhereFields, ih, List.map_cons, List.all_cons]

theorem everywhereTypes_eq (tys : List Ty) : everywhereTypes P tys = tys.all (everywhere P) := by
  induction tys with
  | nil => rfl
  | cons t tys ih => rw [everywhereTypes, ih, List.all_cons]

theorem everywhereVariants_eq (variants : List (Identifier × List Ty)) :
    everywhereVariants P variants = (variants.flatMap (·.2)).all (everywhere P) := by
  induction variants with
  | nil => rfl
  | cons v variants ih =>
    rw [everywhereVariants, ih, everywhereTypes_eq, List.flatMap_cons, List.all_append]

theorem everywhere_iff {ty : Ty} :
    everywhere P ty = true ↔ P ty = true ∧ ∀ t ∈ parts ty, everywhere P t = true := by
  rw [← List.all_eq_true]
  cases ty with
  | record fields => rw [everywhere, Bool.and_eq_true, everywhereFields_eq, parts]
  | enum variants => rw [everywhere, Bool.and_eq_true, everywhereVariants_eq, parts]
  | _ => simp [everywhere, parts]

theorem sizeVariants_eq (variants : List (Identifier × List Ty)) :
    Ty.sizeVariants variants = ((variants.flatMap (·.2)).map Ty.size).sum := by
  induction variants with
  | nil => rfl
  | cons v variants ih =>
    rw [Ty.sizeVariants, ih, Ty.sizeTypes_eq, List.flatMap_cons, List.map_append, List.sum_append]

theorem parts_size (ty : Ty) : ((parts ty).map Ty.size).sum < ty.size := by
  cases ty with
  | record fields =>
    rw [Ty.size, Ty.sizeFields_eq, Ty.sizeTypes_eq]
    exact Nat.lt_succ_self _
  | enum variants =>
    rw [Ty.size, sizeVariants_eq]
    exact Nat.lt_succ_self _
  | _ => simp [parts, Ty.size]

theorem size_lt_of_part {t ty : Ty} (h : t ∈ parts ty) : t.size < ty.size := by
  have hle := Ty.size_le h
  rw [Ty.sizeTypes_eq] at hle
  exact hle.trans_lt (parts_size ty)

/-- What holds of a type if it holds of the types of its fields holds of all types. -/
theorem parts_induction {motive : Ty → Prop} (h : ∀ ty, (∀ t ∈ parts ty, motive t) → motive ty)
    (ty : Ty) : motive ty :=
  h ty fun t _ => parts_induction h t
termination_by ty.size
decreasing_by exact size_lt_of_part ‹_›

theorem mem_parts_of_variant {variants : List (Identifier × List Ty)} {v : Identifier × List Ty}
    {t : Ty} (hv : v ∈ variants) (ht : t ∈ v.2) : t ∈ parts (.enum variants) :=
  List.mem_flatMap.mpr ⟨v, hv, ht⟩

/-! ### Values that all Rust types share -/

def sameValues (env : Externs) (h : ∀ id mem a b, env.eqFn id mem a b = true) :
    RustValues Unit env where
  holds _ _ _ _ := True
  eq _ _ _ := true
  eqFn_eq _ _ := h _ _ _ _

/-- The memory has the value at an address, if there is but one value of the Rust types. -/
def HoldsSame (rt : Rt) (mem : Memory) : Ty → ℕ → Value Unit → Prop :=
  Holds rt (fun _ _ _ _ => True) mem

def HoldsSameAll (rt : Rt) (mem : Memory) : List (ℕ × Ty) → ℕ → List (Value Unit) → Prop :=
  HoldsAll rt (fun _ _ _ _ => True) mem

/-- Structural equality of such values. -/
def sameEq (rt : Rt) : Value Unit → Value Unit → Bool := Value.eq rt fun _ _ _ => true

def sameEqAll (rt : Rt) : List (Value Unit) → List (Value Unit) → Bool :=
  Value.eqAll rt fun _ _ _ => true

variable {mem mem' : Memory}

theorem bits_congr {n a : ℕ} (h : ∀ k, a ≤ k → k < a + n → mem' k = mem k) :
    mem'.bits n a = mem.bits n a := by
  induction n generalizing a with
  | zero => rfl
  | succ n ih =>
    have hrest : mem'.bits n (a + 1) = mem.bits n (a + 1) :=
      ih fun k hle hlt => h k (by omega) (by omega)
    rw [Memory.bits, Memory.bits, h a le_rfl (by omega), hrest]

theorem holdsSameAll_congr {fields : List (ℕ × Ty)} {a : ℕ} {vs : List (Value Unit)}
    (h : ∀ f ∈ fields, ∀ v, HoldsSame rt mem f.2 (a + f.1) v → HoldsSame rt mem' f.2 (a + f.1) v)
    (hs : HoldsSameAll rt mem fields a vs) : HoldsSameAll rt mem' fields a vs := by
  induction fields generalizing vs with
  | nil =>
    cases hs
    exact .nil
  | cons f fields ih =>
    obtain ⟨hf, hfields⟩ := List.forall_mem_cons.mp h
    cases hs with
    | cons hv hvs => exact .cons (hf _ hv) (ih hfields hvs)

/-- A field at its offset. -/
theorem Placed.of_mem_zip {l : Layout} {start : ℕ} {tys : List Ty} {offs : List ℕ}
    (h : Placed rt l start tys offs) {f : ℕ × Ty} (hf : f ∈ offs.zip tys) :
    f.2 ∈ tys ∧ ∃ field, layoutOf rt f.2 = some field ∧ start ≤ f.1 ∧ f.1 + field.size ≤ l.size := by
  obtain ⟨i, hi⟩ := List.mem_iff_getElem?.mp hf
  obtain ⟨hoff, hty⟩ := List.getElem?_zip_eq_some.mp hi
  obtain ⟨field, hfield, hinside, hstart, -⟩ := h.inside i f.2 f.1 hty hoff
  exact ⟨List.mem_of_getElem? hty, field, hfield, hstart, hinside.inside⟩

theorem Placed.exists_off {l : Layout} {start i : ℕ} {tys : List Ty} {offs : List ℕ} {t : Ty}
    (h : Placed rt l start tys offs) (ht : tys[i]? = some t) : ∃ off, offs[i]? = some off := by
  obtain ⟨hi, -⟩ := List.getElem?_eq_some_iff.mp ht
  exact ⟨_, List.getElem?_eq_getElem (h.length_eq ▸ hi)⟩

/-- A value only depends on the bytes in its place. -/
theorem HoldsSame.congr {ty : Ty} {l : Layout} {a : ℕ} {v : Value Unit}
    (hl : layoutOf rt ty = some l) (hsame : ∀ k, a ≤ k → k < a + l.size → mem' k = mem k)
    (h : HoldsSame rt mem ty a v) : HoldsSame rt mem' ty a v := by
  induction ty using parts_induction generalizing l a v with
  | h ty ih =>
  have hfields : ∀ {start : ℕ} {tys : List Ty} {offs : List ℕ} {vs : List (Value Unit)},
      Placed rt l start tys offs → (∀ t ∈ tys, t ∈ parts ty) →
        HoldsSameAll rt mem (offs.zip tys) a vs → HoldsSameAll rt mem' (offs.zip tys) a vs := by
    intro start tys offs vs hplaced hparts hvs
    refine holdsSameAll_congr (fun f hf v hv => ?_) hvs
    obtain ⟨hty, field, hfield, -, hinside⟩ := hplaced.of_mem_zip hf
    exact ih f.2 (hparts _ hty) hfield (fun k hle hlt => hsame k (by omega) (by omega)) hv
  cases h with
  | unit => exact .unit
  | leaf hid hx => exact .leaf hid trivial
  | scalar hp =>
    rename_i p irTy
    obtain rfl := Option.some.inj hl
    have hbytes : ∀ k, a ≤ k → k < a + irTy.bytes → mem' k = mem k := by
      rw [scalarType_bytes hp]
      exact hsame
    rw [← bits_congr hbytes]
    exact .scalar hp
  | record hls hvs => exact .record hls (hfields (record_placed hl hls) (fun _ ht => ht) hvs)
  | enum hv hd hls hvs =>
    have hmem := List.mem_of_getElem? hv
    have hpos := enum_pos hl
    rw [← hsame a le_rfl (by omega)] at hd
    exact .enum hv hd hls (hfields (variant_placed hl hmem hls)
      (fun _ ht => mem_parts_of_variant hmem ht) hvs)

/-! ### Memory that is zero -/

theorem exists_zeroAll {fields : List (ℕ × Ty)} {a : ℕ}
    (h : ∀ f ∈ fields, ∃ v, HoldsSame rt mem f.2 (a + f.1) v ∧ sameEq rt v v = true) :
    ∃ vs, HoldsSameAll rt mem fields a vs ∧ sameEqAll rt vs vs = true := by
  induction fields with
  | nil => exact ⟨[], .nil, rfl⟩
  | cons f fields ih =>
    obtain ⟨⟨v, hv, heq⟩, hfields⟩ := List.forall_mem_cons.mp h
    obtain ⟨vs, hvs, heqs⟩ := ih hfields
    exact ⟨v :: vs, .cons hv hvs, Bool.and_eq_true_iff.mpr ⟨heq, heqs⟩⟩

theorem scalarEq_zero (irTy : IrType) : scalarEq irTy 0 0 = true := by cases irTy <;> rfl

theorem bits_zero (n a : ℕ) : Memory.bits (fun _ => 0) n a = 0 := by
  induction n generalizing a with
  | zero => rfl
  | succ n ih =>
    rw [Memory.bits, ih]
    rfl

/-- A type in which everything takes space has a value where the memory is zero, and it is equal
to itself. -/
theorem exists_zero {ty : Ty} (h : everywhere (takesSpace rt) ty = true) (a : ℕ) :
    ∃ v, HoldsSame rt (fun _ => 0) ty a v ∧ sameEq rt v v = true := by
  induction ty using parts_induction generalizing a with
  | h ty ih =>
  obtain ⟨hspace, hparts⟩ := everywhere_iff.mp h
  obtain ⟨l, hl, hpos⟩ := takesSpace_iff.mp hspace
  have hleaf : ∀ id, rustType rt ty = some id →
      ∃ v, HoldsSame rt (fun _ => 0) ty a v ∧ sameEq rt v v = true := by
    intro id hid
    refine ⟨.leaf ty (), .leaf hid trivial, ?_⟩
    show (rustType rt ty).any (fun _ => true) = true
    rw [hid]
    rfl
  cases hty : ty with
  | unit =>
    rw [hty] at hl
    obtain rfl := Option.some.inj hl
    cases hpos
  | never =>
    rw [hty] at hl
    cases hl
  | primitive p =>
    by_cases hscalar : ∃ irTy, scalarType p = some irTy
    · obtain ⟨irTy, hp⟩ := hscalar
      refine ⟨_, .scalar hp, ?_⟩
      rw [bits_zero]
      exact scalarEq_zero irTy
    · have hrust : ∃ id, rustType rt (.primitive p) = some id := by
        cases p with
        | string => exact ⟨_, rfl⟩
        | ipAddr => exact ⟨_, rfl⟩
        | ipPrefix => exact ⟨_, rfl⟩
        | int k s => exact absurd (scalarType_int k s) hscalar
        | float s => exact absurd (scalarType_float s) hscalar
        | _ => exact absurd ⟨_, rfl⟩ hscalar
      obtain ⟨id, hid⟩ := hrust
      rw [hty] at hleaf
      exact hleaf id hid
  | list t =>
    rw [hty] at hleaf
    exact hleaf _ rfl
  | runtime id =>
    rw [hty] at hleaf
    exact hleaf _ rfl
  | record fields =>
    subst hty
    obtain ⟨ls, hls, -⟩ := Option.map_eq_some_iff.mp ((layoutOf_record fields).symm.trans hl)
    have hvalues : ∃ vs, HoldsSameAll rt (fun _ => 0)
        ((LayoutBuilder.new.placed ls).zip (fields.map (·.2))) a vs ∧
          sameEqAll rt vs vs = true := by
      apply exists_zeroAll
      intro f hf
      have hpart : f.2 ∈ parts (.record fields) := (List.of_mem_zip hf).2
      exact ih f.2 hpart (hparts _ hpart) (a + f.1)
    obtain ⟨vs, hvs, heq⟩ := hvalues
    exact ⟨.record vs, .record hls hvs, heq⟩
  | enum variants =>
    subst hty
    cases variants with
    | nil => cases hl
    | cons v variants =>
      have hmem : v ∈ v :: variants := List.mem_cons_self
      obtain ⟨ls, hls⟩ := @layoutsOf_isSome rt v.2 fun t ht => by
        obtain ⟨l, hl, -⟩ := takesSpace_iff.mp
          (everywhere_iff.mp (hparts t (mem_parts_of_variant hmem ht))).1
        exact Option.isSome_of_eq_some hl
      have hvalues : ∃ vs, HoldsSameAll rt (fun _ => 0)
          ((LayoutBuilder.tagged.placed ls).zip v.2) a vs ∧ sameEqAll rt vs vs = true := by
        apply exists_zeroAll
        intro f hf
        have hpart := mem_parts_of_variant hmem (List.of_mem_zip hf).2
        exact ih f.2 hpart (hparts _ hpart) (a + f.1)
      obtain ⟨vs, hvs, heq⟩ := hvalues
      refine ⟨.enum 0 vs, .enum (v := v) rfl rfl hls hvs, ?_⟩
      exact Bool.and_eq_true_iff.mpr ⟨rfl, heq⟩

/-- The same, where only the place of the value is zero. -/
theorem exists_zero_at {ty : Ty} {l : Layout} (h : everywhere (takesSpace rt) ty = true)
    (hl : layoutOf rt ty = some l) {a : ℕ} (hzero : ∀ k, a ≤ k → k < a + l.size → mem k = 0) :
    ∃ v, HoldsSame rt mem ty a v ∧ sameEq rt v v = true := by
  obtain ⟨v, hv, heq⟩ := exists_zero h a
  exact ⟨v, hv.congr hl hzero, heq⟩

/-! ### Memory that is two values -/

/-- The memory has two values of the type at an address, which are not equal. -/
def Ambiguous (rt : Rt) (mem : Memory) (ty : Ty) (a : ℕ) : Prop :=
  ∃ v w, HoldsSame rt mem ty a v ∧ HoldsSame rt mem ty a w ∧
    sameEq rt v v = true ∧ sameEq rt v w = false

def AmbiguousAll (rt : Rt) (mem : Memory) (fields : List (ℕ × Ty)) (a : ℕ) : Prop :=
  ∃ vs ws, HoldsSameAll rt mem fields a vs ∧ HoldsSameAll rt mem fields a ws ∧
    sameEqAll rt vs vs = true ∧ sameEqAll rt vs ws = false

theorem Ambiguous.congr {ty : Ty} {l : Layout} {a : ℕ} (hl : layoutOf rt ty = some l)
    (hsame : ∀ k, a ≤ k → k < a + l.size → mem' k = mem k) (h : Ambiguous rt mem ty a) :
    Ambiguous rt mem' ty a := by
  obtain ⟨v, w, hv, hw, heq, hne⟩ := h
  exact ⟨v, w, hv.congr hl hsame, hw.congr hl hsame, heq, hne⟩

/-- One field is enough. -/
theorem ambiguousAll_of {fields : List (ℕ × Ty)} {i a : ℕ} {f : ℕ × Ty} (hf : fields[i]? = some f)
    (h : Ambiguous rt mem f.2 (a + f.1))
    (hothers : ∀ j g, j ≠ i → fields[j]? = some g →
      ∃ u, HoldsSame rt mem g.2 (a + g.1) u ∧ sameEq rt u u = true) :
    AmbiguousAll rt mem fields a := by
  induction fields generalizing i with
  | nil => cases hf
  | cons g fields ih =>
    cases i with
    | zero =>
      obtain rfl := Option.some.inj hf
      obtain ⟨v, w, hv, hw, heq, hne⟩ := h
      have hvalues : ∃ us, HoldsSameAll rt mem fields a us ∧ sameEqAll rt us us = true := by
        apply exists_zeroAll
        intro g hg
        obtain ⟨j, hj⟩ := List.mem_iff_getElem?.mp hg
        exact hothers (j + 1) g (Nat.succ_ne_zero j) hj
      obtain ⟨us, hus, heqs⟩ := hvalues
      refine ⟨v :: us, w :: us, .cons hv hus, .cons hw hus, Bool.and_eq_true_iff.mpr ⟨heq, heqs⟩, ?_⟩
      exact Bool.and_eq_false_imp.mpr fun htrue => absurd htrue (Bool.eq_false_iff.mp hne)
    | succ i =>
      obtain ⟨u, hu, hself⟩ := hothers 0 g (Nat.succ_ne_zero i).symm rfl
      obtain ⟨vs, ws, hvs, hws, heqs, hnes⟩ := ih hf fun j g hj hg =>
        hothers (j + 1) g (fun heq => hj (Nat.succ.inj heq)) hg
      exact ⟨u :: vs, u :: ws, .cons hu hvs, .cons hu hws, Bool.and_eq_true_iff.mpr ⟨hself, heqs⟩,
        Bool.and_eq_false_imp.mpr fun _ => hnes⟩

/-- The fields of a record or a variant are two values, if one of them is and the places of the
others are zero. -/
theorem placed_ambiguous {l : Layout} {start : ℕ} {tys : List Ty} {offs : List ℕ}
    (hplaced : Placed rt l start tys offs)
    (hspace : ∀ t ∈ tys, everywhere (takesSpace rt) t = true) {i a off : ℕ} {t : Ty} {field : Layout}
    (ht : tys[i]? = some t) (hoff : offs[i]? = some off) (hfield : layoutOf rt t = some field)
    (hzero : ∀ k, k < a + off ∨ a + off + field.size ≤ k → mem k = 0)
    (hsame : ∀ k, a + start ≤ k → mem' k = mem k) (h : Ambiguous rt mem t (a + off)) :
    AmbiguousAll rt mem' (offs.zip tys) a := by
  obtain ⟨field', hfield', -, hstart, hnext⟩ := hplaced.inside i t off ht hoff
  obtain rfl := Option.some.inj (hfield.symm.trans hfield')
  refine ambiguousAll_of (i := i) (f := (off, t)) (List.getElem?_zip_eq_some.mpr ⟨hoff, ht⟩) ?_
    fun j g hji hg => ?_
  · exact h.congr hfield fun k hle _ => hsame k (by omega)
  · obtain ⟨hoff', ht'⟩ := List.getElem?_zip_eq_some.mp hg
    obtain ⟨gl, hgl, -, hstart', hnext'⟩ := hplaced.inside j g.2 g.1 ht' hoff'
    refine exists_zero_at (hspace g.2 (List.mem_of_getElem? ht')) hgl fun k hle hlt => ?_
    rw [hsame k (by omega)]
    apply hzero
    rcases Nat.lt_or_gt_of_ne hji with hlt' | hgt
    · have hbefore := hnext' i off hlt' hoff
      omega
    · have hafter := hnext j g.1 hgt hoff'
      omega

/-- In a type that takes space, an enum with too many variants has two values with the same
bytes. -/
theorem exists_ambiguous {ty : Ty} {l : Layout} (hspace : everywhere (takesSpace rt) ty = true)
    (hmany : everywhere discriminantsFit ty = false) (hl : layoutOf rt ty = some l) (a : ℕ) :
    ∃ mem : Memory, (∀ k, k < a ∨ a + l.size ≤ k → mem k = 0) ∧ Ambiguous rt mem ty a := by
  induction ty using parts_induction generalizing l a with
  | h ty ih =>
  obtain ⟨-, hparts⟩ := everywhere_iff.mp hspace
  by_cases hfit : discriminantsFit ty = true
  · -- one of the fields is such a type
    have hpart : ∃ t ∈ parts ty, everywhere discriminantsFit t = false := by
      by_contra hnone
      refine Bool.eq_false_iff.mp hmany (everywhere_iff.mpr ⟨hfit, fun t ht => ?_⟩)
      by_contra hfalse
      exact hnone ⟨t, ht, Bool.eq_false_iff.mpr hfalse⟩
    obtain ⟨t, ht, hmany'⟩ := hpart
    obtain ⟨field, hfield, -⟩ := takesSpace_iff.mp (everywhere_iff.mp (hparts t ht)).1
    cases ty with
    | record fields =>
      obtain ⟨ls, hls, -⟩ := Option.map_eq_some_iff.mp ((layoutOf_record fields).symm.trans hl)
      have hplaced := record_placed hl hls
      obtain ⟨i, hi⟩ := List.mem_iff_getElem?.mp ht
      obtain ⟨off, hoff⟩ := hplaced.exists_off hi
      obtain ⟨mem, hzero, hambiguous⟩ := ih t ht (hparts t ht) hmany' hfield (a + off)
      have hboth : AmbiguousAll rt mem ((LayoutBuilder.new.placed ls).zip (fields.map (·.2))) a :=
        placed_ambiguous hplaced hparts hi hoff hfield hzero (fun _ _ => rfl) hambiguous
      obtain ⟨vs, ws, hvs, hws, heq, hne⟩ := hboth
      obtain ⟨_, hfield', hinside, -, -⟩ := hplaced.inside i t off hi hoff
      obtain rfl := Option.some.inj (hfield.symm.trans hfield')
      have hend := hinside.inside
      exact ⟨mem, fun k hk => hzero k (by omega), .record vs, .record ws, .record hls hvs,
        .record hls hws, heq, hne⟩
    | enum variants =>
      obtain ⟨v, hv, htv⟩ := List.mem_flatMap.mp ht
      obtain ⟨d, hd⟩ := List.mem_iff_getElem?.mp hv
      have hpartsOf : ∀ u ∈ v.2, everywhere (takesSpace rt) u = true :=
        fun u hu => hparts u (mem_parts_of_variant hv hu)
      obtain ⟨ls, hls⟩ := @layoutsOf_isSome rt v.2 fun u hu => by
        obtain ⟨l, hl, -⟩ := takesSpace_iff.mp (everywhere_iff.mp (hpartsOf u hu)).1
        exact Option.isSome_of_eq_some hl
      have hplaced := variant_placed hl hv hls
      obtain ⟨i, hi⟩ := List.mem_iff_getElem?.mp htv
      obtain ⟨off, hoff⟩ := hplaced.exists_off hi
      obtain ⟨mem, hzero, hambiguous⟩ := ih t ht (hparts t ht) hmany' hfield (a + off)
      let tagged : Memory := Function.update mem a (UInt8.ofNat d)
      have hsame : ∀ k, k ≠ a → tagged k = mem k := fun k hk => Function.update_of_ne hk _ _
      have hboth : AmbiguousAll rt tagged ((LayoutBuilder.tagged.placed ls).zip v.2) a :=
        placed_ambiguous hplaced hpartsOf hi hoff hfield hzero (fun k hk => hsame k (by omega))
          hambiguous
      obtain ⟨vs, ws, hvs, hws, heq, hne⟩ := hboth
      have htag : (tagged a).toNat = d % 256 := by simp [tagged]
      obtain ⟨_, hfield', hinside, hstart, -⟩ := hplaced.inside i t off hi hoff
      obtain rfl := Option.some.inj (hfield.symm.trans hfield')
      have hend := hinside.inside
      have hpos := enum_pos hl
      refine ⟨tagged, fun k hk => ?_, .enum d vs, .enum d ws, .enum hd htag hls hvs,
        .enum hd htag hls hws, ?_, ?_⟩
      · rw [hsame k (by omega)]
        exact hzero k (by omega)
      · exact Bool.and_eq_true_iff.mpr ⟨decide_eq_true rfl, heq⟩
      · exact Bool.and_eq_false_imp.mpr fun _ => hne
    | _ => cases ht
  · -- the first variant and the one with number 256
    cases ty with
    | enum variants =>
      have hlen : 256 < variants.length := by simpa [discriminantsFit] using hfit
      have hvalue : ∀ d (hd : d < variants.length), d % 256 = 0 →
          ∃ vs, HoldsSame rt (fun _ => 0) (.enum variants) a (.enum d vs) ∧
            sameEqAll rt vs vs = true := by
        intro d hd hzero
        have hmem : variants[d] ∈ variants := List.getElem_mem hd
        obtain ⟨ls, hls⟩ := @layoutsOf_isSome rt variants[d].2 fun t ht => by
          obtain ⟨l, hl, -⟩ := takesSpace_iff.mp
            (everywhere_iff.mp (hparts t (mem_parts_of_variant hmem ht))).1
          exact Option.isSome_of_eq_some hl
        have hvalues : ∃ vs, HoldsSameAll rt (fun _ => 0)
            ((LayoutBuilder.tagged.placed ls).zip variants[d].2) a vs ∧
              sameEqAll rt vs vs = true := by
          apply exists_zeroAll
          intro f hf
          exact exists_zero (hparts _ (mem_parts_of_variant hmem (List.of_mem_zip hf).2)) (a + f.1)
        obtain ⟨vs, hvs, heq⟩ := hvalues
        exact ⟨vs, .enum (List.getElem?_eq_getElem hd) hzero.symm hls hvs, heq⟩
      obtain ⟨vs, hvs, heq⟩ := hvalue 0 (by omega) rfl
      obtain ⟨ws, hws, -⟩ := hvalue 256 hlen rfl
      exact ⟨fun _ => 0, fun _ _ => rfl, .enum 0 vs, .enum 256 ws, hvs, hws,
        Bool.and_eq_true_iff.mpr ⟨rfl, heq⟩, rfl⟩
    | _ => exact absurd rfl hfit

end Roto.Lir
