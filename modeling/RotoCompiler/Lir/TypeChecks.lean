import RotoCompiler.Lir.RuntimeCallAgreement
import RotoCompiler.TypeChecker.SameType

/-!
# Checked types (codegen/check.rs, typechecker/mod.rs)

Which type of a script a Rust type stands for is written down twice: `check_roto_type` knows the
names of the leaves, and `rust_type_to_roto_type` takes them from the runtime. Both say the same
of a Rust type in which every leaf has a name that the check knows.
-/

namespace Roto.TypeChecker

mutual
/-- The type in which number literals without a type of their own have the default types. -/
def Typ.withDefaults : Typ → Typ
  | .intVar _ _ => .named "i32" []
  | .floatVar _ => .named "f64" []
  | .recordVar n fs => .recordVar n (Typ.withDefaultsFields fs)
  | .record fs => .record (Typ.withDefaultsFields fs)
  | .function ps r => .function (Typ.withDefaultsList ps) (Typ.withDefaults r)
  | .name n as => .name n (Typ.withDefaultsList as)
  | .var n => .var n
  | .explicitVar s => .explicitVar s
  | .unit => .unit
  | .never => .never

def Typ.withDefaultsList : List Typ → List Typ
  | [] => []
  | t :: ts => Typ.withDefaults t :: Typ.withDefaultsList ts

def Typ.withDefaultsFields : List (Meta Identifier × Typ) → List (Meta Identifier × Typ)
  | [] => []
  | (x, t) :: fs => (x, Typ.withDefaults t) :: Typ.withDefaultsFields fs
end

theorem Typ.withDefaultsList_eq (ts : List Typ) :
    Typ.withDefaultsList ts = ts.map Typ.withDefaults := by
  induction ts with
  | nil => rfl
  | cons t ts ih => rw [Typ.withDefaultsList, ih, List.map_cons]

theorem Typ.withDefaults_name (n : ResolvedName) (as : List Typ) :
    (Typ.name n as).withDefaults = .name n (as.map Typ.withDefaults) := by
  rw [Typ.withDefaults, Typ.withDefaultsList_eq]

/-- All names in the type are declared, and the types of the runtime take no arguments. -/
inductive Typ.Declared (types : TypeMap) : Typ → Prop where
  | mk {t : Typ} (hname : ∀ n as, t = .name n as → ∃ d, types.resolveTypeName n = some d ∧
        ∀ m id, d = .runtime m id → as = [])
      (hchildren : ∀ c ∈ t.children, Typ.Declared types c) : Typ.Declared types t

theorem Typ.Declared.name {types : TypeMap} {n : ResolvedName} {as : List Typ}
    (h : (Typ.name n as).Declared types) :
    (∃ d, types.resolveTypeName n = some d ∧ ∀ m id, d = .runtime m id → as = []) ∧
      ∀ a ∈ as, a.Declared types := by
  cases h with
  | mk hname hchildren => exact ⟨hname n as rfl, hchildren⟩

theorem Typ.Declared.of_name {types : TypeMap} {n : ResolvedName} {as : List Typ}
    {d : TypeDefinition} (hn : types.resolveTypeName n = some d)
    (hd : ∀ m id, d = .runtime m id → as = []) (has : ∀ a ∈ as, a.Declared types) :
    (Typ.name n as).Declared types := by
  refine .mk (fun m bs h => ?_) has
  obtain ⟨rfl, rfl⟩ := Typ.name.inj h
  exact ⟨d, hn, hd⟩

end Roto.TypeChecker

namespace Roto.Value
open TypeChecker

/-- A type of the runtime has the name under which it is registered. -/
structure RegisteredTypes extends Registry where
  runtime : ∀ n m id, types.resolveTypeName n = some (.runtime m id) → typeName id = some n

/-- Every leaf of the Rust type has a fixed name, and each `Val` is declared as a type of the
runtime. -/
def RustTy.Listed (R : Registry) : RustTy → Prop
  | .unit => True
  | .primitive _ => True
  | .leaf _ => False
  | .dynVal => False
  | .vtable => False
  | .erasedList => False
  | .val id => ∃ n m, R.typeName id = some n ∧ R.types.resolveTypeName n = some (.runtime m id)
  | .option t => t.Listed R
  | .result t e => t.Listed R ∧ e.Listed R
  | .verdict a r => a.Listed R ∧ r.Listed R
  | .list t => t.Listed R

/-- The check comes to an answer, which is `Ok` exactly if `expected` holds. -/
def Decides (types : TypeMap) (τ : RustTy) (uf : UnionFind) (t : Typ) (expected : Prop) : Prop :=
  ∃ result uf' fuel, (∀ fuel' ≥ fuel, checkRotoType types fuel' τ uf t = some (result, uf')) ∧
    uf.Compressed uf' ∧ (result = .ok () ↔ expected)

variable {R : RegisteredTypes} {types : TypeMap} {uf uf' : UnionFind}

/-! ### The full resolution of a type and its head -/

/-- The type is `b` when it is resolved at every depth. -/
def Is (uf : UnionFind) (a b : Typ) : Prop := ∃ X, Expand uf a X ∧ X.withDefaults = b

theorem zip_is {as ts : List Typ} (hlen : ts.length = as.length)
    (h : ∀ p ∈ as.zip ts, Expand uf p.1 p.2) (bs : List Typ) :
    ts.map Typ.withDefaults = bs ↔ List.Forall₂ (Is uf) as bs := by
  induction as generalizing ts bs with
  | nil =>
    obtain rfl := List.length_eq_zero_iff.mp hlen
    rw [List.forall₂_nil_left_iff, List.map_nil, eq_comm]
  | cons a as ih =>
    cases ts with
    | nil => cases hlen
    | cons t ts =>
      have ht : Expand uf a t := h (a, t) (List.mem_cons_self ..)
      have ih := ih (Nat.succ.inj hlen) fun p hp => h p (List.mem_cons_of_mem _ hp)
      constructor
      · rintro rfl
        exact .cons ⟨t, ht, rfl⟩ ((ih _).mp rfl)
      · intro hbs
        obtain ⟨b, cs, ⟨X, hX, rfl⟩, hcs, rfl⟩ := List.forall₂_cons_left_iff.mp hbs
        rw [List.map_cons, (ih cs).mpr hcs, ht.unique hX]

/-- The name at the head of a type is that of what it resolves to. -/
theorem expand_name {t r X : Typ} (hX : Expand uf t X) (hr : uf.Resolves t r) (n : ResolvedName)
    (bs : List Typ) : X.withDefaults = .name n bs ↔
      ∃ as, defaulted r = .name n as ∧ List.Forall₂ (Is uf) as bs := by
  obtain ⟨r', ts, hr', hlen, hts, rfl⟩ := hX.inv
  obtain rfl := hr.unique hr'
  have hdefault : ∀ ident, (Typ.named ident []) = .name n bs ↔
      ∃ as, Typ.named ident [] = .name n as ∧ List.Forall₂ (Is uf) as bs := by
    intro ident
    constructor
    · intro h
      obtain ⟨rfl, rfl⟩ := Typ.name.inj h
      exact ⟨[], rfl, .nil⟩
    · rintro ⟨as, h, has⟩
      obtain ⟨rfl, rfl⟩ := Typ.name.inj h
      rw [List.forall₂_nil_left_iff.mp has]
      rfl
  cases r with
  | intVar m signed => exact hdefault "i32"
  | floatVar m => exact hdefault "f64"
  | name m as =>
    have hmap : (Typ.name m ts).withDefaults = .name m (ts.map Typ.withDefaults) :=
      Typ.withDefaults_name m ts
    show (Typ.name m ts).withDefaults = .name n bs ↔ _
    rw [hmap]
    constructor
    · intro h
      obtain ⟨rfl, hbs⟩ := Typ.name.inj h
      exact ⟨as, rfl, (zip_is hlen hts bs).mp hbs⟩
    · rintro ⟨as', h, has⟩
      obtain ⟨rfl, rfl⟩ := Typ.name.inj h
      rw [(zip_is hlen hts bs).mpr has]
  | function ps q =>
    cases ts with
    | nil => cases hlen
    | cons q' ps' =>
      constructor
      · intro h
        cases h
      · rintro ⟨as, h, -⟩
        cases h
  | _ =>
    constructor
    · intro h
      cases h
    · rintro ⟨as, h, -⟩
      cases h

theorem expand_unit {t r X : Typ} (hX : Expand uf t X) (hr : uf.Resolves t r) :
    X.withDefaults = .unit ↔ defaulted r = .unit := by
  obtain ⟨r', ts, hr', hlen, hts, rfl⟩ := hX.inv
  obtain rfl := hr.unique hr'
  cases r with
  | function ps q =>
    cases ts with
    | nil => cases hlen
    | cons q' ps' => simp [Typ.withChildren, Typ.withDefaults, defaulted]
  | unit => simp [Typ.withChildren, Typ.withDefaults, defaulted]
  | intVar m signed => simp [Typ.withChildren, Typ.withDefaults, defaulted]
  | _ => simp [Typ.withChildren, Typ.withDefaults, defaulted]

/-- What a declared type resolves to has a declared name and declared arguments. -/
theorem expand_declared {t X : Typ} {n : ResolvedName} {as : List Typ} (hX : Expand uf t X)
    (hr : uf.Resolves t (.name n as)) (hd : X.Declared types) :
    (∃ d, types.resolveTypeName n = some d ∧ ∀ m id, d = .runtime m id → as = []) ∧
      ∀ a ∈ as, ∃ Y, Expand uf a Y ∧ Y.Declared types := by
  obtain ⟨r', ts, hr', hlen, hts, rfl⟩ := hX.inv
  obtain rfl := hr.unique hr'
  obtain ⟨⟨d, hn, hargs⟩, hchildren⟩ := Typ.Declared.name hd
  refine ⟨⟨d, hn, fun m id h => ?_⟩, fun a ha => ?_⟩
  · have hnil : ts = [] := hargs m id h
    rw [hnil] at hlen
    exact List.length_eq_zero_iff.mp hlen.symm
  · obtain ⟨i, hi, rfl⟩ := List.getElem_of_mem ha
    have hlen : ts.length = as.length := hlen
    have hi' : i < ts.length := by omega
    have hmem : (as[i], ts[i]) ∈ as.zip ts := by
      rw [List.mem_iff_getElem]
      exact ⟨i, by simp [hi, hi'], by simp⟩
    exact ⟨ts[i], hts _ hmem, hchildren _ (List.getElem_mem hi')⟩

theorem expand_resolves {t X : Typ} (hX : Expand uf t X) : ∃ r uf₁ fuel, uf.Resolves t r ∧
    uf.Compressed uf₁ ∧ ∀ fuel' ≥ fuel, uf.resolve fuel' t = some (r, uf₁) := by
  obtain ⟨r, -, hr, -⟩ := hX.inv
  obtain ⟨fuel, uf₁, hres⟩ := UnionFind.resolve_of_resolves hr
  exact ⟨r, uf₁, fuel, hr, (UnionFind.resolve_spec hres).2,
    fun fuel' hle => UnionFind.resolve_mono hres hle⟩

/-! ### Types with arguments -/

theorem checkOne_named (ident : Identifier) (a : Typ) (e : TypeMismatch)
    (check : Typ → CheckResult) : checkOne ident (.named ident [a]) e uf check = check a := by
  simp [checkOne, Typ.named]

theorem checkOne_error {ident : Identifier} {t : Typ} (e : TypeMismatch) (check : Typ → CheckResult)
    (h : ∀ a, t ≠ .named ident [a]) : checkOne ident t e uf check = some (.error e, uf) := by
  unfold checkOne
  split
  · next n a =>
    split_ifs with hn
    · exact absurd (by rw [hn]; rfl) (h a)
    · rfl
  · rfl

theorem checkTwo_named (ident : Identifier) (a b : Typ) (e : TypeMismatch)
    (check : Typ → Typ → CheckResult) :
    checkTwo ident (.named ident [a, b]) e uf check = check a b := by
  simp [checkTwo, Typ.named]

theorem checkTwo_error {ident : Identifier} {t : Typ} (e : TypeMismatch)
    (check : Typ → Typ → CheckResult) (h : ∀ a b, t ≠ .named ident [a, b]) :
    checkTwo ident t e uf check = some (.error e, uf) := by
  unfold checkTwo
  split
  · next n a b =>
    split_ifs with hn
    · exact absurd (by rw [hn]; rfl) (h a b)
    · rfl
  · rfl

/-- The check of a Rust type decides whether a type is `t₀`. -/
def Agrees (types : TypeMap) (τ : RustTy) (t₀ : Typ) : Prop :=
  ∀ uf t X, Expand uf t X → X.Declared types → Decides types τ uf t (X.withDefaults = t₀)

theorem is_iff {a X b : Typ} (hX : Expand uf a X) : Is uf a b ↔ X.withDefaults = b := by
  constructor
  · rintro ⟨Y, hY, rfl⟩
    rw [hX.unique hY]
  · exact fun h => ⟨X, hX, h⟩

/-- Only a name that has been resolved has arguments. -/
theorem resolved_of_defaulted {r a : Typ} {n : ResolvedName} {as : List Typ}
    (h : defaulted r = .name n (a :: as)) : r = .name n (a :: as) := by
  cases r <;> first | exact h | cases h

theorem agrees_one {τ wrapped : RustTy} {t₀ : Typ} (ident : Identifier)
    (hcheck : ∀ fuel uf t r uf₁, uf.resolve fuel t = some (r, uf₁) →
      checkRotoType types fuel wrapped uf t =
        checkOne ident (defaulted r) ⟨wrapped, t⟩ uf₁ (checkRotoType types fuel τ uf₁))
    (ih : Agrees types τ t₀) : Agrees types wrapped (.named ident [t₀]) := by
  intro uf t X hX hd
  obtain ⟨r, uf₁, fuel, hr, hc, hres⟩ := expand_resolves hX
  have hexpected := expand_name hX hr ⟨ScopeRef.GLOBAL, ident⟩ [t₀]
  by_cases hname : ∃ a, defaulted r = .named ident [a]
  · obtain ⟨a, ha⟩ := hname
    obtain rfl : r = .named ident [a] := resolved_of_defaulted ha
    obtain ⟨-, hargs⟩ := expand_declared hX hr hd
    obtain ⟨Y, hY, hYd⟩ := hargs a (List.mem_singleton_self a)
    obtain ⟨result, uf₂, fuel₂, hinner, hc₂, hiff⟩ :=
      ih uf₁ a Y ((Expand.compressed hc).mpr hY) hYd
    refine ⟨result, uf₂, max fuel fuel₂, fun fuel' hle => ?_, hc.trans hc₂, ?_⟩
    · rw [hcheck fuel' uf t _ uf₁ (hres fuel' (le_trans (le_max_left _ _) hle)), ha, checkOne_named]
      exact hinner fuel' (le_trans (le_max_right _ _) hle)
    · rw [hiff, ← is_iff hY]
      show _ ↔ X.withDefaults = .name ⟨ScopeRef.GLOBAL, ident⟩ [t₀]
      rw [hexpected]
      constructor
      · exact fun h => ⟨[a], rfl, .cons h .nil⟩
      · rintro ⟨as, has, h⟩
        obtain ⟨-, rfl⟩ := Typ.name.inj has
        cases h with
        | cons h _ => exact h
  · refine ⟨.error ⟨wrapped, t⟩, uf₁, fuel, fun fuel' hle => ?_, hc, ?_⟩
    · rw [hcheck fuel' uf t r uf₁ (hres fuel' hle)]
      exact checkOne_error _ _ fun a ha => hname ⟨a, ha⟩
    · refine iff_of_false (fun h => by cases h) fun h => ?_
      obtain ⟨as, has, hall⟩ := hexpected.mp h
      obtain ⟨a, as, -, hnil, rfl⟩ := List.forall₂_cons_right_iff.mp hall
      obtain rfl := List.forall₂_nil_right_iff.mp hnil
      exact hname ⟨a, has⟩

theorem agrees_two {τ σ wrapped : RustTy} {t₀ t₁ : Typ} (ident : Identifier)
    (hcheck : ∀ fuel uf t r uf₁, uf.resolve fuel t = some (r, uf₁) →
      checkRotoType types fuel wrapped uf t =
        checkTwo ident (defaulted r) ⟨wrapped, t⟩ uf₁ fun a b =>
          (checkRotoType types fuel τ uf₁ a).andThen fun uf => checkRotoType types fuel σ uf b)
    (ihτ : Agrees types τ t₀) (ihσ : Agrees types σ t₁) :
    Agrees types wrapped (.named ident [t₀, t₁]) := by
  intro uf t X hX hd
  obtain ⟨r, uf₁, fuel, hr, hc, hres⟩ := expand_resolves hX
  have hexpected := expand_name hX hr ⟨ScopeRef.GLOBAL, ident⟩ [t₀, t₁]
  by_cases hname : ∃ a b, defaulted r = .named ident [a, b]
  · obtain ⟨a, b, hab⟩ := hname
    obtain rfl : r = .named ident [a, b] := resolved_of_defaulted hab
    obtain ⟨-, hargs⟩ := expand_declared hX hr hd
    obtain ⟨Y, hY, hYd⟩ := hargs a (List.mem_cons_self ..)
    obtain ⟨Z, hZ, hZd⟩ := hargs b (List.mem_cons_of_mem a (List.mem_singleton_self b))
    obtain ⟨result, uf₂, fuel₂, hfirst, hc₂, hiff⟩ :=
      ihτ uf₁ a Y ((Expand.compressed hc).mpr hY) hYd
    have hc₂ := hc.trans hc₂
    have hboth : X.withDefaults = .named ident [t₀, t₁] ↔
        Y.withDefaults = t₀ ∧ Z.withDefaults = t₁ := by
      rw [← is_iff hY, ← is_iff hZ]
      show X.withDefaults = .name ⟨ScopeRef.GLOBAL, ident⟩ [t₀, t₁] ↔ _
      rw [hexpected]
      constructor
      · rintro ⟨as, has, h⟩
        obtain ⟨-, rfl⟩ := Typ.name.inj has
        cases h with
        | cons ha h =>
          cases h with
          | cons hb _ => exact ⟨ha, hb⟩
      · rintro ⟨ha, hb⟩
        exact ⟨[a, b], rfl, .cons ha (.cons hb .nil)⟩
    have hrun : ∀ fuel' ≥ fuel, checkRotoType types fuel' wrapped uf t =
        (checkRotoType types fuel' τ uf₁ a).andThen fun uf => checkRotoType types fuel' σ uf b := by
      intro fuel' hle
      rw [hcheck fuel' uf t _ uf₁ (hres fuel' hle), hab, checkTwo_named]
    cases result with
    | error e =>
      -- the second check does not run
      refine ⟨.error e, uf₂, max fuel fuel₂, fun fuel' hle => ?_, hc₂, ?_⟩
      · rw [hrun fuel' (le_trans (le_max_left _ _) hle),
          hfirst fuel' (le_trans (le_max_right _ _) hle)]
        rfl
      · refine iff_of_false (fun h => by cases h) fun h => ?_
        cases hiff.mpr (hboth.mp h).1
    | ok u =>
      have ha : Y.withDefaults = t₀ := hiff.mp rfl
      obtain ⟨result, uf₃, fuel₃, hsecond, hc₃, hiff'⟩ :=
        ihσ uf₂ b Z ((Expand.compressed hc₂).mpr hZ) hZd
      refine ⟨result, uf₃, max fuel (max fuel₂ fuel₃), fun fuel' hle => ?_, hc₂.trans hc₃, ?_⟩
      · rw [hrun fuel' (by omega), hfirst fuel' (by omega)]
        exact hsecond fuel' (by omega)
      · rw [hiff', hboth]
        exact ⟨fun hb => ⟨ha, hb⟩, fun h => h.2⟩
  · refine ⟨.error ⟨wrapped, t⟩, uf₁, fuel, fun fuel' hle => ?_, hc, ?_⟩
    · rw [hcheck fuel' uf t r uf₁ (hres fuel' hle)]
      exact checkTwo_error _ _ fun a b hab => hname ⟨a, b, hab⟩
    · refine iff_of_false (fun h => by cases h) fun h => ?_
      obtain ⟨as, has, hall⟩ := hexpected.mp h
      obtain ⟨a, bs, -, hrest, rfl⟩ := List.forall₂_cons_right_iff.mp hall
      obtain ⟨b, cs, -, hnil, rfl⟩ := List.forall₂_cons_right_iff.mp hrest
      obtain rfl := List.forall₂_nil_right_iff.mp hnil
      exact hname ⟨a, b, has⟩

/-! ### The two definitions -/

theorem of_ok (b : Bool) (e : TypeMismatch) (uf : UnionFind) :
    CheckResult.of b e uf = some (if b then .ok () else .error e, uf) := rfl

theorem agrees_unit : Agrees types .unit .unit := by
  intro uf t X hX _
  obtain ⟨r, uf₁, fuel, hr, hc, hres⟩ := expand_resolves hX
  refine ⟨if defaulted r = .unit then .ok () else .error ⟨.unit, t⟩, uf₁, fuel,
    fun fuel' hle => ?_, hc, ?_⟩
  · unfold checkRotoType
    simp only [hres fuel' hle, of_ok, decide_eq_true_eq]
  · rw [expand_unit hX hr]
    split_ifs with h <;> simp [h]

theorem agrees_primitive (p : Primitive) : Agrees types (.primitive p) (.named p.ident []) := by
  intro uf t X hX _
  obtain ⟨r, uf₁, fuel, hr, hc, hres⟩ := expand_resolves hX
  have hexpected : X.withDefaults = .named p.ident [] ↔ defaulted r = .named p.ident [] := by
    show X.withDefaults = .name ⟨ScopeRef.GLOBAL, p.ident⟩ [] ↔ _
    rw [expand_name hX hr]
    constructor
    · rintro ⟨as, h, has⟩
      rw [h, List.forall₂_nil_right_iff.mp has]
      rfl
    · exact fun h => ⟨[], h, .nil⟩
  refine ⟨if defaulted r = .named p.ident [] then .ok () else .error ⟨.primitive p, t⟩, uf₁, fuel,
    fun fuel' hle => ?_, hc, ?_⟩
  · unfold checkRotoType
    simp only [hres fuel' hle, of_ok, decide_eq_true_eq]
  · rw [hexpected]
    split_ifs with h <;> simp [h]

/-- The check of a `Val` goes by the id that its type is declared with. -/
theorem checkRotoType_val {id : ℕ} {t r : Typ} {uf₁ : UnionFind}
    (hd : ∀ n as, defaulted r = .name n as → ∃ d, types.resolveTypeName n = some d) :
    ∃ result, (∀ fuel, uf.resolve fuel t = some (r, uf₁) →
        checkRotoType types fuel (.val id) uf t = some (result, uf₁)) ∧
      (result = .ok () ↔ ∃ n as m, defaulted r = .name n as ∧
        types.resolveTypeName n = some (.runtime m id)) := by
  by_cases hname : ∃ n as, defaulted r = .name n as
  · obtain ⟨n, as, hname⟩ := hname
    obtain ⟨d, hn⟩ := hd n as hname
    have hiff : (∃ n as m, defaulted r = .name n as ∧
        types.resolveTypeName n = some (.runtime m id)) ↔ ∃ m, d = .runtime m id := by
      constructor
      · rintro ⟨n', as', m, hname', hm⟩
        rw [hname] at hname'
        obtain ⟨rfl, -⟩ := Typ.name.inj hname'
        exact ⟨m, Option.some.inj (hn.symm.trans hm)⟩
      · rintro ⟨m, rfl⟩
        exact ⟨n, as, m, hname, hn⟩
    rw [hiff]
    cases d with
    | runtime m id' =>
      refine ⟨if id = id' then .ok () else .error ⟨.val id, t⟩, fun fuel hres => ?_, ?_⟩
      · unfold checkRotoType
        simp only [hres, hname, hn, of_ok, decide_eq_true_eq]
      · split_ifs with hid
        · exact iff_of_true rfl ⟨m, by rw [hid]⟩
        · refine iff_of_false (fun h => by cases h) ?_
          rintro ⟨m', h⟩
          exact hid (TypeDefinition.runtime.inj h).2.symm
    | _ =>
      refine ⟨.error ⟨.val id, t⟩, fun fuel hres => ?_, ?_⟩
      · unfold checkRotoType
        simp only [hres, hname, hn]
      · refine iff_of_false (fun h => by cases h) ?_
        rintro ⟨m, h⟩
        cases h
  · refine ⟨.error ⟨.val id, t⟩, fun fuel hres => ?_, ?_⟩
    · unfold checkRotoType
      simp only [hres]
      split
      · next n as h => exact absurd ⟨n, as, h⟩ hname
      · rfl
    · refine iff_of_false (fun h => by cases h) ?_
      rintro ⟨n, as, m, h, -⟩
      exact hname ⟨n, as, h⟩

theorem agrees_val {id : ℕ} {n m : ResolvedName} (hname : R.typeName id = some n)
    (hn : R.types.resolveTypeName n = some (.runtime m id)) :
    Agrees R.types (.val id) (.name n []) := by
  intro uf t X hX hd
  obtain ⟨r, uf₁, fuel, hr, hc, hres⟩ := expand_resolves hX
  have hdeclared : ∀ n as, defaulted r = .name n as → ∃ d, R.types.resolveTypeName n = some d ∧
      ∀ m id, d = .runtime m id → as = [] := by
    intro n as h
    rcases Lir.defaulted_name h with rfl | ⟨rfl, p, rfl⟩
    · exact (expand_declared hX hr hd).1
    · exact ⟨_, R.primitive p, fun m id h => by cases h⟩
  have hiff : (∃ n as m, defaulted r = .name n as ∧
      R.types.resolveTypeName n = some (.runtime m id)) ↔ X.withDefaults = .name n [] := by
    rw [expand_name hX hr]
    constructor
    · rintro ⟨n', as, m', h, hm'⟩
      obtain ⟨d, hd, hargs⟩ := hdeclared n' as h
      rw [hm'] at hd
      obtain rfl := hargs m' id (Option.some.inj hd).symm
      have hid := R.runtime n' m' id hm'
      rw [hname] at hid
      obtain rfl := Option.some.inj hid
      exact ⟨[], h, .nil⟩
    · rintro ⟨as, h, -⟩
      exact ⟨n, as, m, h, hn⟩
  obtain ⟨result, hrun, hok⟩ := @checkRotoType_val R.types uf id t r uf₁ fun n as h =>
    ⟨_, (hdeclared n as h).choose_spec.1⟩
  exact ⟨result, uf₁, fuel, fun fuel' hle => hrun fuel' (hres fuel' hle), hc, hok.trans hiff⟩

/-- A Rust type whose leaves are all listed is checked as it is mapped. -/
theorem agrees_of_listed {τ : RustTy} {t₀ : Typ} (hτ : τ.Listed R.toRegistry)
    (h : rustTypeToRotoType R.toRegistry τ = some t₀) : Agrees R.types τ t₀ := by
  induction τ generalizing t₀ with
  | unit =>
    obtain rfl := Option.some.inj h
    exact agrees_unit
  | primitive p =>
    obtain rfl := Option.some.inj h
    exact agrees_primitive p
  | leaf | dynVal | vtable | erasedList => exact hτ.elim
  | val id =>
    obtain ⟨n, m, hname, hn⟩ := hτ
    simp only [rustTypeToRotoType, hname, Option.map_some, Option.some.injEq] at h
    obtain rfl := h
    exact agrees_val hname hn
  | option τ ih =>
    obtain ⟨a, ha, h⟩ := Option.bind_eq_some_iff.mp h
    obtain rfl := Option.some.inj h
    refine agrees_one "Option" (fun fuel uf t r uf₁ hres => ?_) (ih hτ ha)
    rw [checkRotoType]
    simp only [hres]
  | list τ ih =>
    obtain ⟨a, ha, h⟩ := Option.bind_eq_some_iff.mp h
    obtain rfl := Option.some.inj h
    refine agrees_one "List" (fun fuel uf t r uf₁ hres => ?_) (ih hτ ha)
    rw [checkRotoType]
    simp only [hres]
  | result τ σ ihτ ihσ =>
    obtain ⟨a, ha, h⟩ := Option.bind_eq_some_iff.mp h
    obtain ⟨b, hb, h⟩ := Option.bind_eq_some_iff.mp h
    obtain rfl := Option.some.inj h
    refine agrees_two "Result" (fun fuel uf t r uf₁ hres => ?_) (ihτ hτ.1 ha) (ihσ hτ.2 hb)
    rw [checkRotoType]
    simp only [hres]
  | verdict τ σ ihτ ihσ =>
    obtain ⟨a, ha, h⟩ := Option.bind_eq_some_iff.mp h
    obtain ⟨b, hb, h⟩ := Option.bind_eq_some_iff.mp h
    obtain rfl := Option.some.inj h
    refine agrees_two "Verdict" (fun fuel uf t r uf₁ hres => ?_) (ihτ hτ.1 ha) (ihσ hτ.2 hb)
    rw [checkRotoType]
    simp only [hres]

/-- A type that is accepted where it is mapped to has no other leaves. -/
theorem listed_of_check {fuel : ℕ} {τ : RustTy} {t₀ : Typ}
    (h : rustTypeToRotoType R.toRegistry τ = some t₀)
    (hok : checkRotoType R.types fuel τ uf t₀ = some (.ok (), uf')) : τ.Listed R.toRegistry := by
  induction τ generalizing t₀ uf uf' with
  | unit | primitive p => trivial
  | leaf | dynVal | vtable | erasedList =>
    unfold checkRotoType at hok
    split at hok <;> cases hok
  | val id =>
    obtain ⟨n, hname, rfl⟩ := Option.map_eq_some_iff.mp h
    unfold checkRotoType at hok
    simp only [UnionFind.resolve, Typ.varIndex, defaulted] at hok
    split at hok
    · cases hok
    · next m id' hm =>
      obtain ⟨hid, -⟩ := Lir.CheckResult.of_ok hok
      obtain rfl : id = id' := of_decide_eq_true hid
      exact ⟨n, m, hname, hm⟩
    · cases hok
  | option τ ih | list τ ih =>
    obtain ⟨a, ha, h⟩ := Option.bind_eq_some_iff.mp h
    obtain rfl := Option.some.inj h
    unfold checkRotoType at hok
    simp only [Typ.option, Typ.list, Typ.named] at hok
    exact ih ha hok
  | result τ σ ihτ ihσ | verdict τ σ ihτ ihσ =>
    obtain ⟨a, ha, h⟩ := Option.bind_eq_some_iff.mp h
    obtain ⟨b, hb, h⟩ := Option.bind_eq_some_iff.mp h
    obtain rfl := Option.some.inj h
    unfold checkRotoType at hok
    simp only [Typ.verdict, Typ.named] at hok
    obtain ⟨uf₁, hfirst, hsecond⟩ := Lir.CheckResult.andThen_ok hok
    exact ⟨ihτ ha hfirst, ihσ hb hsecond⟩

/-! ### Leaves without a fixed name -/

theorem expand_named (n : ResolvedName) {as : List Typ} (h : ∀ a ∈ as, Expand uf a a) :
    Expand uf (.name n as) (.name n as) := by
  refine @Expand.mk uf _ (.name n as) as (.inl ⟨rfl, rfl⟩) rfl ?_
  intro q hq
  have hzip : as.zip as = as.map fun a => (a, a) := by simp [List.zip_eq_zipWith]
  have hq : q ∈ as.zip as := hq
  rw [hzip, List.mem_map] at hq
  obtain ⟨a, ha, rfl⟩ := hq
  exact h a ha

/-- The types that Rust types are mapped to have no variables. -/
theorem mapped_closed {τ : RustTy} {t₀ : Typ} (h : rustTypeToRotoType R.toRegistry τ = some t₀) :
    Expand uf t₀ t₀ ∧ t₀.withDefaults = t₀ := by
  have leaf : ∀ n : ResolvedName,
      Expand uf (.name n []) (.name n []) ∧ (Typ.name n []).withDefaults = .name n [] :=
    fun n => ⟨expand_named n fun _ ha => (by cases ha), rfl⟩
  have one : ∀ ident {a : Typ}, Expand uf a a ∧ a.withDefaults = a →
      Expand uf (.named ident [a]) (.named ident [a]) ∧
        (Typ.named ident [a]).withDefaults = .named ident [a] := by
    intro ident a ha
    refine ⟨expand_named _ (by simpa using ha.1), ?_⟩
    rw [Typ.named, Typ.withDefaults_name, List.map_singleton, ha.2]
  have two : ∀ ident {a b : Typ}, Expand uf a a ∧ a.withDefaults = a →
      Expand uf b b ∧ b.withDefaults = b →
      Expand uf (.named ident [a, b]) (.named ident [a, b]) ∧
        (Typ.named ident [a, b]).withDefaults = .named ident [a, b] := by
    intro ident a b ha hb
    refine ⟨expand_named _ (by simpa using ⟨ha.1, hb.1⟩), ?_⟩
    rw [Typ.named, Typ.withDefaults_name, List.map_cons, List.map_singleton, ha.2, hb.2]
  induction τ generalizing t₀ with
  | unit =>
    obtain rfl := Option.some.inj h
    exact ⟨@Expand.mk uf _ .unit [] (.inl ⟨rfl, rfl⟩) rfl fun _ hq => (by cases hq), rfl⟩
  | primitive p =>
    obtain rfl := Option.some.inj h
    exact leaf _
  | erasedList =>
    obtain rfl := Option.some.inj h
    exact leaf _
  | leaf id | val id =>
    obtain ⟨n, -, rfl⟩ := Option.map_eq_some_iff.mp h
    exact leaf n
  | dynVal | vtable => cases h
  | option τ ih =>
    obtain ⟨a, ha, h⟩ := Option.bind_eq_some_iff.mp h
    obtain rfl := Option.some.inj h
    exact one "Option" (ih ha)
  | list τ ih =>
    obtain ⟨a, ha, h⟩ := Option.bind_eq_some_iff.mp h
    obtain rfl := Option.some.inj h
    exact one "List" (ih ha)
  | result τ σ ihτ ihσ =>
    obtain ⟨a, ha, h⟩ := Option.bind_eq_some_iff.mp h
    obtain ⟨b, hb, h⟩ := Option.bind_eq_some_iff.mp h
    obtain rfl := Option.some.inj h
    exact two "Result" (ihτ ha) (ihσ hb)
  | verdict τ σ ihτ ihσ =>
    obtain ⟨a, ha, h⟩ := Option.bind_eq_some_iff.mp h
    obtain ⟨b, hb, h⟩ := Option.bind_eq_some_iff.mp h
    obtain rfl := Option.some.inj h
    exact two "Verdict" (ihτ ha) (ihσ hb)

/-- Over all types of a script, the check accepts exactly what a Rust type is mapped to, if and
only if every leaf of the Rust type is listed. -/
theorem check_agrees_iff {τ : RustTy} {t₀ : Typ}
    (h : rustTypeToRotoType R.toRegistry τ = some t₀) (hd : t₀.Declared R.types) :
    Agrees R.types τ t₀ ↔ τ.Listed R.toRegistry := by
  constructor
  · intro hagrees
    obtain ⟨hexpand, hdefaults⟩ := @mapped_closed R .empty τ t₀ h
    obtain ⟨result, uf', fuel, hrun, -, hiff⟩ := hagrees .empty t₀ t₀ hexpand hd
    obtain rfl := hiff.mpr hdefaults
    exact listed_of_check h (hrun fuel le_rfl)
  · exact fun hτ => agrees_of_listed hτ h

/-! ### The types of the built-in library -/

def charsTypes : TypeMap :=
  (⟨ScopeRef.GLOBAL, "StringChars"⟩, .runtime ⟨ScopeRef.GLOBAL, "StringChars"⟩ 8) :: Lir.tokenTypes

def charsName (id : ℕ) : Option ResolvedName :=
  if id = 7 then some ⟨0, "Token"⟩ else if id = 8 then some ⟨0, "StringChars"⟩ else none

theorem charsName_runtime : ∀ e ∈ charsTypes, (match e.2 with
    | .runtime _ id => decide (charsName id = some e.1)
    | _ => true) = true := by decide

/-- `Token` is a `Val`, and `StringChars` a leaf. -/
def chars : RegisteredTypes where
  types := charsTypes
  wellFormed := by decide
  typeName := charsName
  primitive p := by
    cases p with
    | int kind size => cases kind <;> cases size <;> rfl
    | float size => cases size <;> rfl
    | _ => rfl
  option := rfl
  verdict := rfl
  result := rfl
  list := rfl
  registered := by
    intro id n d hn hd
    unfold charsName at hn
    split_ifs at hn with hid hid'
    · obtain rfl := Option.some.inj hn
      obtain rfl := Option.some.inj (show some (TypeDefinition.runtime ⟨0, "Token"⟩ 7) = some d from hd)
      exact .inl (by rw [hid])
    · obtain rfl := Option.some.inj hn
      obtain rfl := Option.some.inj
        (show some (TypeDefinition.runtime ⟨0, "StringChars"⟩ 8) = some d from hd)
      exact .inl (by rw [hid'])
  runtime := by
    intro n m id h
    exact of_decide_eq_true (charsName_runtime _ (TypeMap.mem_of_resolveTypeName h))

theorem token_declared : (Typ.named "Token" []).Declared chars.types :=
  @Typ.Declared.of_name chars.types _ [] (.runtime ⟨0, "Token"⟩ 7) rfl (fun _ _ _ => rfl)
    fun _ h => nomatch h

/-- `List<Option<Val<Token>>>` -/
theorem check_agrees_tokens :
    Agrees chars.types (.list (.option (.val 7))) (.list (.option (.named "Token" []))) := by
  have hoption : (Typ.option (.named "Token" [])).Declared chars.types :=
    .of_name chars.option (fun _ _ h => (nomatch h)) (by simpa using token_declared)
  have hlist : (Typ.list (.option (.named "Token" []))).Declared chars.types :=
    .of_name chars.list (fun _ _ h => (nomatch h)) (by simpa using hoption)
  exact (check_agrees_iff rfl hlist).mpr ⟨⟨0, "Token"⟩, ⟨0, "Token"⟩, rfl, rfl⟩

/-- The check panics for `StringChars`. -/
theorem check_chars_panics :
    ¬ ∀ (R : RegisteredTypes) (τ : RustTy) (t₀ : Typ), rustTypeToRotoType R.toRegistry τ = some t₀ →
      t₀.Declared R.types → Agrees R.types τ t₀ := by
  intro h
  have hd : (Typ.named "StringChars" []).Declared chars.types :=
    @Typ.Declared.of_name chars.types _ [] (.runtime ⟨0, "StringChars"⟩ 8) rfl (fun _ _ _ => rfl)
      fun _ h => nomatch h
  have hexpand := expand_named ⟨ScopeRef.GLOBAL, "StringChars"⟩ fun (a : Typ) (ha : a ∈ []) =>
    (nomatch ha : Expand .empty a a)
  obtain ⟨result, uf', fuel, hrun, -, -⟩ :=
    h chars (.leaf 8) (.named "StringChars" []) rfl hd .empty (.named "StringChars" []) _ hexpand hd
  have hrun := hrun fuel le_rfl
  unfold checkRotoType at hrun
  cases hrun

end Roto.Value
