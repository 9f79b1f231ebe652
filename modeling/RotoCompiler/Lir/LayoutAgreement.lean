import RotoCompiler.Lir.Offsets

/-!
# All offsets agree

The loops over fields all place the layouts of the fields one after the other, so for an
inhabited type they agree with each other and with `layout_of`, as long as 32 bits are enough
for the offsets.
-/

namespace Roto.Lir
open Mir

/-- A field at an offset of a value is aligned and lies inside. -/
structure Inside (l field : Layout) (off : ℕ) : Prop where
  aligned : field.align ∣ off
  inside : off + field.size ≤ l.size
  align_le : field.align ≤ l.align

/-- Where fields start in the C representation, if they come one after the other and `before`
bytes are before them. -/
def starts (before : ℕ) : List Layout → List ℕ
  | [] => []
  | l :: ls =>
    let start := nextMultipleOf before l.align
    start :: starts (start + l.size) ls

/-- Each field of the record, or of an inhabited variant, starts below 4 GiB. -/
def offsetsFit (rt : Rt) : Ty → Bool
  | .record fields =>
    (layoutsOf rt (fields.map (·.2))).all fun ls => (starts 0 ls).all fun off => off < 2 ^ 32
  | .enum variants => variants.all fun v =>
    (layoutsOf rt v.2).all fun ls => (starts 1 ls).all fun off => off < 2 ^ 32
  | _ => true

variable {rt : Rt} {ls : List Layout} {b : LayoutBuilder} {l : Layout}

/-! ### Offsets of 32 bits -/

theorem placed_eq_starts (b : LayoutBuilder) (ls : List Layout) : b.placed ls = starts b.size ls := by
  induction ls generalizing b with
  | nil => rfl
  | cons l ls ih => exact congrArg _ (ih (b.add l).2)

theorem asU32_of_lt {n : ℕ} (h : n < 2 ^ 32) : asU32 n = n := Nat.mod_eq_of_lt h

theorem map_asU32 {offs : List ℕ} (h : ∀ off ∈ offs, off < 2 ^ 32) : offs.map asU32 = offs := by
  have hmap : offs.map asU32 = offs.map id := List.map_congr_left fun off hoff => asU32_of_lt (h off hoff)
  rw [hmap, List.map_id]

theorem emittedOffsets_zip (offs : List ℕ) (tys : List Ty) :
    emittedOffsets (offs.zip tys) = (offs.map asU32).zip tys := by
  rw [emittedOffsets, List.zip_map_left]
  rfl

theorem eqRecordFields_eq {fields : List (Identifier × Ty)}
    (h : layoutsOf rt (fields.map (·.2)) = some ls) :
    eqRecordFields rt b fields =
      (((b.placed ls).map asU32).zip (fields.map (·.2))).map fun f => (some f.1, f.2) := by
  induction fields generalizing b ls with
  | nil => simp [eqRecordFields]
  | cons f fields ih =>
    obtain ⟨l, ls', hl, hls', rfl⟩ := layoutsOf_cons h
    rw [eqRecordFields]
    simp only [hl, ih hls']
    rfl

/-- Fields at some offsets lie inside a layout, after `start`, and do not overlap. -/
structure Placed (rt : Rt) (l : Layout) (start : ℕ) (tys : List Ty) (offs : List ℕ) : Prop where
  length_eq : offs.length = tys.length
  inside : ∀ (i : ℕ) (ty : Ty) (off : ℕ), tys[i]? = some ty → offs[i]? = some off →
    ∃ field, layoutOf rt ty = some field ∧ Inside l field off ∧ start ≤ off ∧
      ∀ (j off' : ℕ), i < j → offs[j]? = some off' → off + field.size ≤ off'

theorem placed_of_builder {tys : List Ty} (h : layoutsOf rt tys = some ls)
    (hsize : (b.addAll ls).size ≤ l.size) (halign : (b.addAll ls).align ≤ l.align) :
    Placed rt l b.size tys (b.placed ls) := by
  refine ⟨by simp [layoutsOf_length h], fun i ty off hty hoff => ?_⟩
  have hlt : i < ls.length := by
    rw [layoutsOf_length h]
    exact (List.getElem?_eq_some_iff.mp hty).1
  have hfield : ls[i]? = some ls[i] := List.getElem?_eq_getElem hlt
  have hlay := layoutsOf_getElem? h i
  rw [hty, hfield] at hlay
  obtain ⟨hdvd, hstart, hin, hle⟩ := LayoutBuilder.placed_inside hfield hoff
  exact ⟨ls[i], hlay.symm, ⟨hdvd, hin.trans hsize, hle.trans halign⟩, hstart,
    fun j off' hij hoff' => LayoutBuilder.placed_disjoint hij hfield hoff hoff'⟩

theorem record_placed {fields : List (Identifier × Ty)} (h : layoutOf rt (.record fields) = some l)
    (hls : layoutsOf rt (fields.map (·.2)) = some ls) :
    Placed rt l 0 (fields.map (·.2)) (LayoutBuilder.new.placed ls) := by
  rw [layoutOf_record, hls] at h
  obtain rfl := Option.some.inj h
  have hfinish := LayoutBuilder.finish_mono (b := LayoutBuilder.new.addAll ls)
  exact placed_of_builder hls hfinish.1 hfinish.2

theorem variant_placed {variants : List (Identifier × List Ty)} {v : Identifier × List Ty}
    (h : layoutOf rt (.enum variants) = some l) (hv : v ∈ variants)
    (hls : layoutsOf rt v.2 = some ls) : Placed rt l 1 v.2 (LayoutBuilder.tagged.placed ls) := by
  have hvariant : variantLayout rt v.2 = some (LayoutBuilder.tagged.addAll ls).finish := by
    rw [variantLayout, hls]
    rfl
  rw [layoutOf] at h
  have hle := variantLayout_le h hv hvariant
  have hfinish := LayoutBuilder.finish_mono (b := LayoutBuilder.tagged.addAll ls)
  exact placed_of_builder hls (hfinish.1.trans hle.1) (hfinish.2.trans hle.2)

theorem variantFields_eq {tys : List Ty} (h : layoutsOf rt tys = some ls) :
    variantFields rt tys = some ((LayoutBuilder.tagged.placed ls).zip tys) := by
  rw [variantFields, h]
  rfl

theorem eqVariantFields_eq {tys : List Ty} (h : layoutsOf rt tys = some ls) :
    eqVariantFields rt tys = some (((LayoutBuilder.tagged.placed ls).map asU32).zip tys) := by
  rw [eqVariantFields, variantFields_eq h, ← emittedOffsets_zip]
  rfl

theorem offsetsFit_record {fields : List (Identifier × Ty)}
    (hls : layoutsOf rt (fields.map (·.2)) = some ls) :
    offsetsFit rt (.record fields) = true ↔ ∀ off ∈ LayoutBuilder.new.placed ls, off < 2 ^ 32 := by
  rw [offsetsFit, hls, placed_eq_starts]
  simp [LayoutBuilder.new]

theorem offsetsFit_enum {variants : List (Identifier × List Ty)} :
    offsetsFit rt (.enum variants) = true ↔ ∀ v ∈ variants, ∀ ls, layoutsOf rt v.2 = some ls →
      ∀ off ∈ LayoutBuilder.tagged.placed ls, off < 2 ^ 32 := by
  have hsize : LayoutBuilder.tagged.size = 1 := rfl
  rw [offsetsFit, List.all_eq_true]
  refine forall₂_congr fun v hv => ?_
  cases hls : layoutsOf rt v.2 with
  | none => simp
  | some ls => simp [placed_eq_starts, hsize]

/-- A runtime in which every registered type is one pointer. -/
def pointerRt : Rt where
  runtimeType _ := ⟨.cloneDrop, .eight⟩
  rotoString := 0
  erasedList := 1
  ipAddr := 2
  ipPrefix := 3
  string_clone := rfl
  list_clone := rfl
  string_pos := by decide
  list_pos := by decide
  ipAddr_pos := by decide
  ipPrefix_pos := by decide

end Roto.Lir
