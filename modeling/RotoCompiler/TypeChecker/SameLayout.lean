import RotoCompiler.TypeChecker.SameType

/-!
# Equal expansions have one layout

`convert` looks at a type only through the store, so two types with the same full
resolution are converted to the same MIR type, and the layout of a value is read off the
MIR type alone.
-/

namespace Roto.TypeChecker
open Mir

variable {uf : UnionFind}

/-- Conversions of `a` by `f` and of `b` by `g`, from any compressed forms of a store, that
both succeed give the same. -/
def EqualOn {α β γ : Type} (uf : UnionFind) (f : UnionFind → α → ConvertResult γ)
    (g : UnionFind → β → ConvertResult γ) (a : α) (b : β) : Prop :=
  ∀ u w x y u' w', uf.Compressed u → uf.Compressed w → f u a = some (some x, u') →
    g w b = some (some y, w') → x = y ∧ uf.Compressed u' ∧ uf.Compressed w'

section
variable {α β γ δ : Type} {f : UnionFind → α → ConvertResult γ}
  {g : UnionFind → β → ConvertResult γ}

theorem equalOn_map {a : α} {b : β} (h : EqualOn uf f g a b) (k : γ → δ) :
    EqualOn uf (fun u a => (f u a).map k) (fun u b => (g u b).map k) a b := by
  intro u w x y u' w' hu hw hf hg
  obtain ⟨x₀, hfx, rfl⟩ := ConvertResult.map_some hf
  obtain ⟨y₀, hgy, rfl⟩ := ConvertResult.map_some hg
  obtain ⟨rfl, hc⟩ := h u w x₀ y₀ u' w' hu hw hfx hgy
  exact ⟨rfl, hc⟩

theorem equalOn_convertNamed {p : Identifier × α} {q : Identifier × β} (hn : p.1 = q.1)
    (h : EqualOn uf f g p.2 q.2) : EqualOn uf (convertNamed f) (convertNamed g) p q := by
  intro u w x y u' w' hu hw hf hg
  simp only [convertNamed, hn] at hf hg
  exact equalOn_map h (fun b => (q.1, b)) u w x y u' w' hu hw hf hg

theorem equalOn_convertAll {as : List α} {bs : List β}
    (h : List.Forall₂ (EqualOn uf f g) as bs) :
    EqualOn uf (convertAll f) (convertAll g) as bs := by
  intro u w xs ys u' w' hu hw hf hg
  induction h generalizing u w xs ys with
  | nil =>
    obtain ⟨hx, rfl⟩ := Prod.mk.inj (Option.some.inj hf)
    obtain ⟨hy, rfl⟩ := Prod.mk.inj (Option.some.inj hg)
    exact ⟨(Option.some.inj hx).symm.trans (Option.some.inj hy), hu, hw⟩
  | @cons a b as bs hab _ ih =>
    simp only [convertAll] at hf hg
    rcases hfa : f u a with _ | ⟨_ | x, u₁⟩
    · simp [hfa] at hf
    · simp [hfa] at hf
    rcases hgb : g w b with _ | ⟨_ | y, w₁⟩
    · simp [hgb] at hg
    · simp [hgb] at hg
    simp only [hfa] at hf
    simp only [hgb] at hg
    obtain ⟨rfl, hu₁, hw₁⟩ := hab u w x y u₁ w₁ hu hw hfa hgb
    rcases hfs : convertAll f u₁ as with _ | ⟨_ | xs', u₂⟩
    · simp [hfs] at hf
    · simp [hfs] at hf
    rcases hgs : convertAll g w₁ bs with _ | ⟨_ | ys', w₂⟩
    · simp [hgs] at hg
    · simp [hgs] at hg
    simp only [hfs, Option.some.injEq, Prod.mk.injEq] at hf
    simp only [hgs, Option.some.injEq, Prod.mk.injEq] at hg
    obtain ⟨rfl, rfl⟩ := hf
    obtain ⟨rfl, rfl⟩ := hg
    obtain ⟨rfl, hc⟩ := ih u₁ w₁ xs' ys' hu₁ hw₁ hfs hgs
    exact ⟨rfl, hc⟩

end

theorem equalOn_fields {f g : UnionFind → Typ → ConvertResult Ty} {fs gs : Fields}
    (hn : fs.map Prod.fst = gs.map Prod.fst)
    (h : List.Forall₂ (EqualOn uf f g) (fs.map Prod.snd) (gs.map Prod.snd)) :
    EqualOn uf (convertAll (convertNamed f)) (convertAll (convertNamed g))
      (fs.map fun i => (i.1.node, i.2)) (gs.map fun i => (i.1.node, i.2)) := by
  apply equalOn_convertAll
  induction fs generalizing gs with
  | nil =>
    cases gs with
    | nil => exact .nil
    | cons _ _ => cases hn
  | cons p fs ih =>
    cases gs with
    | nil => cases hn
    | cons q gs =>
      simp only [List.map_cons, List.cons.injEq] at hn
      obtain ⟨hpq, hn⟩ := hn
      cases h with
      | cons hab hrest =>
        exact .cons (equalOn_convertNamed (by simp [hpq]) hab) (ih hn hrest)

/-! ### Substitution keeps expansions equal -/

theorem SameExpansion.refl_of_children {t : Typ} (hv : t.varIndex = none)
    (hc : t.children = []) : SameExpansion uf t t := by
  have h : Expand uf t (t.withChildren []) :=
    Expand.of_children (Or.inl ⟨hv, rfl⟩) (by rw [hc]; exact .nil)
  exact ⟨_, h, h⟩

theorem expand_record {fs : Fields} {X : Typ} :
    Expand uf (.record fs) X ↔ ∃ ts, List.Forall₂ (Expand uf) (fs.map Prod.snd) ts ∧
      X = .record ((fs.map Prod.fst).zip ts) := by
  constructor
  · exact fun h => h.children (Or.inl ⟨rfl, rfl⟩)
  · rintro ⟨ts, hts, rfl⟩
    exact Expand.of_children (r := .record fs) (Or.inl ⟨rfl, rfl⟩) hts

theorem SameExpansion.record {fs gs : Fields} (hn : fs.map Prod.fst = gs.map Prod.fst)
    (h : List.Forall₂ (SameExpansion uf) (fs.map Prod.snd) (gs.map Prod.snd)) :
    SameExpansion uf (.record fs) (.record gs) := by
  obtain ⟨ts, hf, hg⟩ := forall₂_sameExpansion h
  exact ⟨_, expand_record.mpr ⟨ts, hf, rfl⟩, expand_record.mpr ⟨ts, hg, by rw [hn]⟩⟩

theorem SameExpansion.substituteMany {types : TypeMap} {k : ℕ} {ps : List Identifier}
    (hnodup : ps.Nodup) {as bs : List Typ} (hlen : ps.length = as.length)
    (h : List.Forall₂ (SameExpansion uf) as bs)
    (has : ∀ a ∈ as, a.wellFormed types (some k) [] = true)
    (hbs : ∀ b ∈ bs, b.wellFormed types (some k) [] = true)
    {t : Typ} (ht : t.wellFormed types none ps = true) :
    SameExpansion uf (t.substituteMany (paramSubs ps as)) (t.substituteMany (paramSubs ps bs)) := by
  induction t with
  | var _ | intVar _ _ | floatVar _ | recordVar _ _ _ | function _ _ _ _ =>
    simp [Typ.wellFormed] at ht
  | unit =>
    rw [substituteMany_unit, substituteMany_unit]
    exact .refl_of_children rfl rfl
  | never =>
    rw [substituteMany_never, substituteMany_never]
    exact .refl_of_children rfl rfl
  | explicitVar s =>
    simp only [Typ.wellFormed, decide_eq_true_eq] at ht
    obtain ⟨i, hi⟩ := List.mem_iff_getElem?.mp ht
    obtain ⟨hia, hgeta⟩ := List.getElem?_eq_some_iff.mp
      (substituteMany_explicitVar_at hnodup hi hlen has)
    obtain ⟨hib, hgetb⟩ := List.getElem?_eq_some_iff.mp
      (substituteMany_explicitVar_at hnodup hi (hlen.trans h.length_eq) hbs)
    have hget := (List.forall₂_iff_get.mp h).2 i hia hib
    rw [List.get_eq_getElem, List.get_eq_getElem, hgeta, hgetb] at hget
    exact hget
  | record fs ih =>
    rw [Typ.wellFormed_record] at ht
    rw [substituteMany_record, substituteMany_record]
    refine .record (by simp) ?_
    simp only [List.map_map, List.forall₂_map_left_iff, List.forall₂_map_right_iff]
    exact List.forall₂_same.mpr fun f hf => ih f hf (ht f hf)
  | name n as' ih =>
    obtain ⟨d, -, -, ha⟩ := Typ.wellFormed_name.mp ht
    rw [substituteMany_name, substituteMany_name]
    refine .name ?_
    simp only [List.forall₂_map_left_iff, List.forall₂_map_right_iff]
    exact List.forall₂_same.mpr fun a hm => ih a hm (ha a hm)

/-! ### Equal conversions -/

def Typ.isLeaf : Typ → Bool
  | .var _ => true
  | .explicitVar _ => true
  | .intVar _ _ => true
  | .floatVar _ => true
  | .unit => true
  | .never => true
  | _ => false

/-- Two resolved types with one full resolution are built alike, from children with one
full resolution each. -/
inductive Alike (uf : UnionFind) : Typ → Typ → Prop where
  | leaf (t : Typ) (h : t.isLeaf = true) : Alike uf t t
  | record {fs gs : Fields} (hn : fs.map Prod.fst = gs.map Prod.fst)
      (h : List.Forall₂ (SameExpansion uf) (fs.map Prod.snd) (gs.map Prod.snd)) :
      Alike uf (.record fs) (.record gs)
  | recordVar {n : ℕ} {fs gs : Fields} (hn : fs.map Prod.fst = gs.map Prod.fst)
      (h : List.Forall₂ (SameExpansion uf) (fs.map Prod.snd) (gs.map Prod.snd)) :
      Alike uf (.recordVar n fs) (.recordVar n gs)
  | function (ps qs : List Typ) (r s : Typ) : Alike uf (.function ps r) (.function qs s)
  | name {n : ResolvedName} {as bs : List Typ} (h : List.Forall₂ (SameExpansion uf) as bs) :
      Alike uf (.name n as) (.name n bs)

theorem forall₂_of_common {as bs ts : List Typ} (ha : List.Forall₂ (Expand uf) as ts)
    (hb : List.Forall₂ (Expand uf) bs ts) : List.Forall₂ (SameExpansion uf) as bs := by
  induction ha generalizing bs with
  | nil => cases hb; exact .nil
  | cons hat _ ih =>
    cases hb with
    | cons hbt hbs => exact .cons ⟨_, hat, hbt⟩ (ih hbs)

/-- Equal records of expansions have the same field names and fields. -/
theorem alike_fields {fs gs : Fields} {ts us : List Typ}
    (hf : List.Forall₂ (Expand uf) (fs.map Prod.snd) ts)
    (hg : List.Forall₂ (Expand uf) (gs.map Prod.snd) us)
    (h : (fs.map Prod.fst).zip ts = (gs.map Prod.fst).zip us) :
    fs.map Prod.fst = gs.map Prod.fst ∧
      List.Forall₂ (SameExpansion uf) (fs.map Prod.snd) (gs.map Prod.snd) := by
  have hlf : (fs.map Prod.fst).length = ts.length := by simpa using hf.length_eq
  have hlg : (gs.map Prod.fst).length = us.length := by simpa using hg.length_eq
  have hnames : fs.map Prod.fst = gs.map Prod.fst := by
    rw [← List.map_fst_zip (le_of_eq hlf), h, List.map_fst_zip (le_of_eq hlg)]
  have htypes : ts = us := by
    rw [← List.map_snd_zip (le_of_eq hlf.symm), h, List.map_snd_zip (le_of_eq hlg.symm)]
  subst htypes
  exact ⟨hnames, forall₂_of_common hf hg⟩

theorem alike_of_sameExpansion {a b r q : Typ} (h : SameExpansion uf a b)
    (ha : uf.Resolves a r) (hb : uf.Resolves b q) : Alike uf r q := by
  obtain ⟨X, hX, hY⟩ := h
  obtain ⟨ts, hts, rfl⟩ := ((expand_congr ha).mp hX).children ha.idem
  obtain ⟨us, hus, heq⟩ := ((expand_congr hb).mp hY).children hb.idem
  have hfun : ∀ {ps : List Typ} {s : Typ} {vs : List Typ},
      List.Forall₂ (Expand uf) (Typ.function ps s).children vs →
      ∃ v vs', vs = v :: vs' := by
    intro ps s vs hv
    cases hv with
    | cons _ _ => exact ⟨_, _, rfl⟩
  cases r with
  | var _ | explicitVar _ | intVar _ _ | floatVar _ | unit | never =>
    cases q with
    | function ps s => obtain ⟨v, vs, rfl⟩ := hfun hus; cases heq
    | _ => first | (cases heq; exact .leaf _ rfl) | cases heq
  | function ps s =>
    obtain ⟨v, vs, rfl⟩ := hfun hts
    cases q with
    | function qs q => exact .function ps qs s q
    | _ => cases heq
  | name n as =>
    cases q with
    | function ps s => obtain ⟨v, vs, rfl⟩ := hfun hus; cases heq
    | name m bs =>
      obtain ⟨rfl, rfl⟩ := Typ.name.inj heq
      exact .name (forall₂_of_common hts hus)
    | _ => cases heq
  | record fs =>
    cases q with
    | function ps s => obtain ⟨v, vs, rfl⟩ := hfun hus; cases heq
    | record gs =>
      obtain ⟨hn, hc⟩ := alike_fields hts hus (Typ.record.inj heq)
      exact .record hn hc
    | _ => cases heq
  | recordVar n fs =>
    cases q with
    | function ps s => obtain ⟨v, vs, rfl⟩ := hfun hus; cases heq
    | recordVar m gs =>
      obtain ⟨rfl, hfields⟩ := Typ.recordVar.inj heq
      obtain ⟨hn, hc⟩ := alike_fields hts hus hfields
      exact .recordVar hn hc
    | _ => cases heq

/-- The fields of one definition at arguments with equal expansions. -/
theorem forall₂_substituteMany {D : Declarations} {k : ℕ} {n : ResolvedName} {d : TypeDefinition}
    {as bs : List Typ} (hd : D.types.resolveTypeName n = some d)
    (hr : (Typ.name n as).wellFormed D.types (some k) [] = true)
    (hq : (Typ.name n bs).wellFormed D.types (some k) [] = true)
    (h : List.Forall₂ (SameExpansion uf) as bs) {ts : List Typ} (hts : ∀ t ∈ ts, t ∈ d.fieldTypes) :
    List.Forall₂ (SameExpansion uf)
      (ts.map fun t => t.substituteMany (d.arguments.zip as))
      (ts.map fun t => t.substituteMany (d.arguments.zip bs)) := by
  obtain ⟨d₁, hd₁, hlen, has⟩ := Typ.wellFormed_name.mp hr
  obtain ⟨-, -, -, hbs⟩ := Typ.wellFormed_name.mp hq
  rw [hd] at hd₁
  obtain rfl := Option.some.inj hd₁
  have hwf := D.wf hd
  simp only [hwf.subs, List.forall₂_map_left_iff, List.forall₂_map_right_iff]
  exact List.forall₂_same.mpr fun t ht =>
    .substituteMany hwf.nodup (D.params_length hd hlen) h has hbs (hwf.fields t (hts t ht))

theorem equalOn_const {α β γ : Type} {f : UnionFind → α → ConvertResult γ}
    {g : UnionFind → β → ConvertResult γ} {a : α} {b : β} (r : Option γ)
    (hf : ∀ u, f u a = some (r, u)) (hg : ∀ w, g w b = some (r, w)) : EqualOn uf f g a b := by
  intro u w x y u' w' hu hw hfx hgy
  rw [hf] at hfx
  rw [hg] at hgy
  obtain ⟨rfl, rfl⟩ := Prod.mk.inj (Option.some.inj hfx)
  obtain ⟨hxy, rfl⟩ := Prod.mk.inj (Option.some.inj hgy)
  exact ⟨Option.some.inj hxy, hu, hw⟩

theorem EqualOn.of_eq {α β α' β' γ : Type} {f : UnionFind → α → ConvertResult γ}
    {g : UnionFind → β → ConvertResult γ} {f' : UnionFind → α' → ConvertResult γ}
    {g' : UnionFind → β' → ConvertResult γ} {a : α} {b : β} {a' : α'} {b' : β'}
    (h : EqualOn uf f g a b) (hf : ∀ u, f' u a' = f u a) (hg : ∀ w, g' w b' = g w b) :
    EqualOn uf f' g' a' b' := by
  intro u w x y u' w' hu hw hfx hgy
  rw [hf] at hfx
  rw [hg] at hgy
  exact h u w x y u' w' hu hw hfx hgy

/-- Types built alike are converted alike. -/
theorem equalOn_convertResolved {D : Declarations} {k : ℕ}
    {f g : UnionFind → Typ → ConvertResult Ty} {r q : Typ} (h : Alike uf r q)
    (hr : r.wellFormed D.types (some k) [] = true) (hq : q.wellFormed D.types (some k) [] = true)
    (hfg : ∀ a b, SameExpansion uf a b → a.wellFormed D.types (some k) [] = true →
      b.wellFormed D.types (some k) [] = true → EqualOn uf f g a b) :
    EqualOn uf (convertResolved D.types f) (convertResolved D.types g) r q := by
  have lift : ∀ {as bs : List Typ}, List.Forall₂ (SameExpansion uf) as bs →
      (∀ a ∈ as, a.wellFormed D.types (some k) [] = true) →
      (∀ b ∈ bs, b.wellFormed D.types (some k) [] = true) →
      List.Forall₂ (EqualOn uf f g) as bs := by
    intro as bs h has hbs
    obtain ⟨hlen, hzip⟩ := List.forall₂_iff_zip.mp h
    refine List.forall₂_iff_zip.mpr ⟨hlen, fun {a b} hab => ?_⟩
    have hm := List.of_mem_zip hab
    exact hfg a b (hzip hab) (has a hm.1) (hbs b hm.2)
  have wf_snd : ∀ {fs : Fields}, (∀ f ∈ fs, f.2.wellFormed D.types (some k) [] = true) →
      ∀ a ∈ fs.map Prod.snd, a.wellFormed D.types (some k) [] = true := by
    intro fs hfs a ha
    obtain ⟨f, hf, rfl⟩ := List.mem_map.mp ha
    exact hfs f hf
  cases h with
  | leaf _ h =>
    cases r with
    | var _ => exact equalOn_const (some Ty.never) (fun _ => rfl) fun _ => rfl
    | explicitVar _ => exact equalOn_const none (fun _ => rfl) fun _ => rfl
    | intVar _ _ => exact equalOn_const (some Ty.i32) (fun _ => rfl) fun _ => rfl
    | floatVar _ => exact equalOn_const (some Ty.f64) (fun _ => rfl) fun _ => rfl
    | unit => exact equalOn_const (some Ty.unit) (fun _ => rfl) fun _ => rfl
    | never => exact equalOn_const (some Ty.unit) (fun _ => rfl) fun _ => rfl
    | _ => cases h
  | function ps qs r s => exact equalOn_const none (fun _ => rfl) fun _ => rfl
  | record hn h =>
    have hfs := wf_snd (Typ.wellFormed_record.mp hr)
    have hgs := wf_snd (Typ.wellFormed_record.mp hq)
    exact .of_eq (equalOn_map (equalOn_fields hn (lift h hfs hgs)) Ty.record)
      (fun _ => rfl) fun _ => rfl
  | recordVar hn h =>
    have hfs := wf_snd (Typ.wellFormed_recordVar.mp hr).2
    have hgs := wf_snd (Typ.wellFormed_recordVar.mp hq).2
    exact .of_eq (equalOn_map (equalOn_fields hn (lift h hfs hgs)) Ty.record)
      (fun _ => rfl) fun _ => rfl
  | @name n as bs h =>
    obtain ⟨d, hd, hlen, has⟩ := Typ.wellFormed_name.mp hr
    obtain ⟨d₂, hd₂, hlen₂, hbs⟩ := Typ.wellFormed_name.mp hq
    rw [hd] at hd₂
    obtain rfl := Option.some.inj hd₂
    -- a part of the first list of parts has a part of the second as its partner
    have hparts : ∀ {ts : List Typ}, (∀ t ∈ ts, t ∈ d.fieldTypes) →
        List.Forall₂ (EqualOn uf f g)
          (ts.map fun t => t.substituteMany (d.arguments.zip as))
          (ts.map fun t => t.substituteMany (d.arguments.zip bs)) := by
      intro ts hts
      have hwf := D.wf hd
      refine lift (forall₂_substituteMany hd hr hq h hts) ?_ ?_
      · intro a ha
        obtain ⟨t, ht, rfl⟩ := List.mem_map.mp ha
        rw [hwf.subs]
        exact wellFormed_substituteMany (hwf.fields t (hts t ht)) (D.params_length hd hlen) has
      · intro a ha
        obtain ⟨t, ht, rfl⟩ := List.mem_map.mp ha
        rw [hwf.subs]
        exact wellFormed_substituteMany (hwf.fields t (hts t ht)) (D.params_length hd hlen₂) hbs
    cases d with
    | enum tn vs =>
      have hvs : List.Forall₂ (EqualOn uf (convertNamed (convertAll f)) (convertNamed (convertAll g)))
          (vs.map fun v => (v.name, (v.substituteMany (tn.arguments.zip as)).fields))
          (vs.map fun v => (v.name, (v.substituteMany (tn.arguments.zip bs)).fields)) := by
        simp only [List.forall₂_map_left_iff, List.forall₂_map_right_iff]
        refine List.forall₂_same.mpr fun v hv => equalOn_convertNamed rfl (equalOn_convertAll ?_)
        exact hparts fun t ht => List.mem_flatMap.mpr ⟨v, hv, ht⟩
      exact .of_eq (equalOn_map (equalOn_convertAll hvs) Ty.enum)
        (fun u => by simp only [convertResolved, hd]) fun w => by simp only [convertResolved, hd]
    | record tn fs =>
      have hfs : List.Forall₂ (EqualOn uf (convertNamed f) (convertNamed g))
          (fs.map fun i => (i.1.node, i.2.substituteMany (tn.arguments.zip as)))
          (fs.map fun i => (i.1.node, i.2.substituteMany (tn.arguments.zip bs))) := by
        have := @hparts (fs.map Prod.snd) fun t ht => ht
        simp only [List.map_map, List.forall₂_map_left_iff, List.forall₂_map_right_iff] at this ⊢
        exact List.forall₂_same.mpr fun i hi =>
          equalOn_convertNamed rfl (List.forall₂_same.mp this i hi)
      exact .of_eq (equalOn_map (equalOn_convertAll hfs) Ty.record)
        (fun u => by simp only [convertResolved, hd]) fun w => by simp only [convertResolved, hd]
    | runtime _ i =>
      exact equalOn_const (some (Ty.runtime i)) (fun u => by simp only [convertResolved, hd])
        fun w => by simp only [convertResolved, hd]
    | primitive p =>
      exact equalOn_const (some (Ty.primitive p)) (fun u => by simp only [convertResolved, hd])
        fun w => by simp only [convertResolved, hd]
    | list tn =>
      cases h with
      | nil =>
        exact equalOn_const none (fun u => by simp only [convertResolved, hd])
          fun w => by simp only [convertResolved, hd]
      | cons hab _ =>
        exact .of_eq (equalOn_map (hfg _ _ hab (has _ (List.mem_cons_self ..))
          (hbs _ (List.mem_cons_self ..))) Ty.list)
          (fun u => by simp only [convertResolved, hd]) fun w => by simp only [convertResolved, hd]

/-- Types with the same full resolution are converted to the same type. -/
theorem equalOn_convert {D : Declarations} (hv : uf.Valid D.types) (n m : ℕ) {a b : Typ}
    (h : SameExpansion uf a b) (ha : uf.Known D.types a) (hb : uf.Known D.types b) :
    EqualOn uf (convert D.types n) (convert D.types m) a b := by
  induction n generalizing m a b with
  | zero => intro u w x y u' w' _ _ hf; cases hf
  | succ n ih =>
    intro u w x y u' w' hu hw hf hg
    cases m with
    | zero => cases hg
    | succ m =>
      simp only [convert] at hf hg
      rcases hra : u.resolve n a with _ | ⟨r, u₁⟩
      · simp [hra] at hf
      rcases hrb : w.resolve m b with _ | ⟨q, w₁⟩
      · simp [hrb] at hg
      simp only [hra] at hf
      simp only [hrb] at hg
      obtain ⟨hr, hu₁⟩ := UnionFind.resolve_spec hra
      obtain ⟨hq, hw₁⟩ := UnionFind.resolve_spec hrb
      rw [UnionFind.Resolves.compressed hu] at hr
      rw [UnionFind.Resolves.compressed hw] at hq
      exact equalOn_convertResolved (alike_of_sameExpansion h hr hq) (hv.resolves ha hr)
        (hv.resolves hb hq) (fun c d hcd hc hd => ih m hcd hc hd)
        u₁ w₁ x y u' w' (hu.trans hu₁) (hw.trans hw₁) hf hg

end Roto.TypeChecker
