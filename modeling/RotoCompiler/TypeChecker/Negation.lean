import RotoCompiler.TypeChecker.Literals

/-!
# Operands of a minus (typechecker/expr.rs, Negate)

A minus is only checked when its operand has been, and the variable of an integer is marked
then. Merging variables keeps the mark, whichever way they are merged, and a marked variable is
bound to signed types only.
-/

namespace Roto.TypeChecker
open UnionFind

variable {types : TypeMap} {uf uf' uf'' : UnionFind}

/-! ### Signed numbers -/

def FloatOf (types : TypeMap) (t : Typ) : Prop :=
  (∃ n, t = .floatVar n) ∨ ∃ size, IsPrim types (.float size) t

theorem floatOf_of_unifyFloatName {n v : ℕ} {m : ResolvedName} {as : List Typ} {t : Typ}
    (h : unifyFloatName types n m as = some (.bind v t)) : FloatOf types t := by
  unfold unifyFloatName at h
  by_cases has : as ≠ []
  · rw [if_pos has] at h
    cases h
  rw [if_neg has] at h
  cases hd : types.resolveTypeName m with
  | none => simp [hd] at h
  | some d =>
    simp only [hd] at h
    split_ifs at h with hfloat
    · obtain ⟨-, rfl⟩ := Rule.bind.inj (Option.some.inj h)
      cases d with
      | primitive p =>
        cases p with
        | float size => exact .inr ⟨size, m, as, rfl, hd⟩
        | _ => cases hfloat
      | _ => cases hfloat
    · cases h

/-- What a float variable is bound to. -/
theorem floatOf_of_bind {n v : ℕ} {b t : Typ}
    (h : unifyArm types (.floatVar n) b = some (.bind v t) ∨
      unifyArm types b (.floatVar n) = some (.bind v t)) : FloatOf types t := by
  cases b with
  | floatVar m =>
    rcases h with h | h
    · unfold unifyArm at h
      split_ifs at h
      · cases h
      · obtain ⟨-, rfl⟩ := Rule.bind.inj (Option.some.inj h)
        exact .inl ⟨m, rfl⟩
    · unfold unifyArm at h
      split_ifs at h
      · cases h
      · obtain ⟨-, rfl⟩ := Rule.bind.inj (Option.some.inj h)
        exact .inl ⟨n, rfl⟩
  | name m as =>
    rcases h with h | h
    · exact floatOf_of_unifyFloatName h
    · exact floatOf_of_unifyFloatName h
  | var m =>
    rcases h with h | h
    · obtain ⟨-, rfl⟩ := Rule.bind.inj (Option.some.inj h)
      exact .inl ⟨n, rfl⟩
    · obtain ⟨-, rfl⟩ := Rule.bind.inj (Option.some.inj h)
      exact .inl ⟨n, rfl⟩
  | _ => rcases h with h | h <;> cases h

theorem kept_floatOf : Kept types (FloatOf types) where
  notRecord := by
    rintro t (⟨n, rfl⟩ | ⟨size, hprim⟩)
    · exact not_recordLike_of_var (fun _ _ h => nomatch h) rfl
    · exact hprim.not_recordLike
  bound := by
    rintro a b v t (⟨n, rfl⟩ | ⟨size, n, as, rfl, -⟩) hv h
    · exact floatOf_of_bind h
    · cases hv
  marked := by
    rintro n (⟨m, h⟩ | ⟨size, m, as, h, -⟩) <;> cases h

theorem Kept.or {P Q : Typ → Prop} (hP : Kept types P) (hQ : Kept types Q) :
    Kept types fun t => P t ∨ Q t where
  notRecord := by
    rintro t (h | h)
    · exact hP.notRecord t h
    · exact hQ.notRecord t h
  bound := by
    rintro a b v t (h | h) hv hbind
    · exact .inl (hP.bound a b v t h hv hbind)
    · exact .inr (hQ.bound a b v t h hv hbind)
  marked := by
    rintro n (h | h)
    · exact .inl (hP.marked n h)
    · exact .inr (hQ.marked n h)

/-- A signed integer type, a variable that must become one, or a float type. -/
def SignedNumber (types : TypeMap) (t : Typ) : Prop := IntOf types .yes t ∨ FloatOf types t

theorem kept_signedNumber : Kept types (SignedNumber types) := (kept_intOf .yes).or kept_floatOf

/-! ### The check of a minus -/

/-- After the mark, a numeric operand that is not unsigned is a signed number. -/
theorem signedNumber_markSigned {operand r : Typ} (hr : uf.Resolves operand r)
    (hnumeric : Numeric types r) (hunsigned : isUnsigned types r = some false) :
    Pinned (SignedNumber types) (markSigned uf r) operand := by
  have hint : IntOf types .no r → Pinned (SignedNumber types) (markSigned uf r) operand := by
    intro hint
    obtain ⟨q, hq, hsigned⟩ := pinned_markSigned hr hint hunsigned
    exact ⟨q, hq, .inl hsigned⟩
  rcases hnumeric with ⟨n, rfl⟩ | ⟨n, s, rfl⟩ | ⟨n, as, d, rfl, hd, hnum⟩
  · exact ⟨_, hr, .inr (.inl ⟨n, rfl⟩)⟩
  · exact hint (.inl ⟨n, s, rfl, fun h => nomatch h⟩)
  · cases d with
    | primitive p =>
      cases p with
      | int k size => exact hint (.inr ⟨k, size, ⟨n, as, rfl, hd⟩, fun h => nomatch h⟩)
      | float size => exact ⟨_, hr, .inr (.inr ⟨size, n, as, rfl, hd⟩)⟩
      | _ => cases hnum
    | _ => cases hnum

/-- An accepted minus leaves the type of its operand a signed number, and keeps what else is
kept. -/
theorem checkNegate_signed {fuel : ℕ} {checkOperand : UnionFind → Typ → CheckResult}
    {expected : Typ} (hcheck : checkOperand (uf.fresh .var).2 (uf.fresh .var).1 = some (.ok (), uf'))
    (h : checkNegate types fuel checkOperand uf expected = some (.ok (), uf'')) :
    Pinned (SignedNumber types) uf'' (uf.fresh .var).1 ∧
      ∀ t, Pinned (SignedNumber types) uf' t → Pinned (SignedNumber types) uf'' t := by
  obtain ⟨uf₁, uf₂, operandTy, t, hcheck₁, hr, hc, hself, hunsigned, hnumeric, hu⟩ :=
    checkNegate_run h
  cases hcheck.symm.trans hcheck₁
  have hoperand := (Resolves.compressed hc).mpr hr
  have hmarked := signedNumber_markSigned hoperand hnumeric hunsigned
  refine ⟨pinned_unify kept_signedNumber hu hmarked, ?_⟩
  intro a ha
  have hkept : Keeps types (SignedNumber types) _ _ := .of_compressed hc
  exact pinned_unify kept_signedNumber hu
    (keeps_markSigned kept_signedNumber hself (hkept.pinned a ha))

/-- A run of the checker on its store, with the types that the operands of all minuses were
checked against. The check of an operand is a run of its own. -/
inductive Checking (types : TypeMap) : UnionFind → List Typ → UnionFind → Prop where
  | done (uf : UnionFind) : Checking types uf [] uf
  | fresh {uf uf' : UnionFind} {operands : List Typ} (f : ℕ → Typ)
      (rest : Checking types (uf.fresh f).2 operands uf') : Checking types uf operands uf'
  | resolve {uf uf₁ uf' : UnionFind} {operands : List Typ} {fuel : ℕ} {t r : Typ}
      (h : uf.resolve fuel t = some (r, uf₁)) (rest : Checking types uf₁ operands uf') :
      Checking types uf operands uf'
  | unify {uf uf₁ uf' : UnionFind} {operands : List Typ} {fuel : ℕ} {a b : Typ}
      {r : Except (Typ × Typ) Typ} (h : TypeChecker.unify types fuel uf a b = some (r, uf₁))
      (rest : Checking types uf₁ operands uf') : Checking types uf operands uf'
  | negate {uf uf₁ uf₂ uf' : UnionFind} {inner later : List Typ} {fuel : ℕ}
      {checkOperand : UnionFind → Typ → CheckResult} {expected : Typ}
      (operand : Checking types (uf.fresh .var).2 inner uf₁)
      (hcheck : checkOperand (uf.fresh .var).2 (uf.fresh .var).1 = some (.ok (), uf₁))
      (h : checkNegate types fuel checkOperand uf expected = some (.ok (), uf₂))
      (rest : Checking types uf₂ later uf') :
      Checking types uf (inner ++ (uf.fresh .var).1 :: later) uf'

/-- A run keeps signed numbers, and makes the operands of its minuses such. -/
theorem Checking.pinned {operands : List Typ} (h : Checking types uf operands uf') :
    (∀ t, Pinned (SignedNumber types) uf t → Pinned (SignedNumber types) uf' t) ∧
      ∀ t ∈ operands, Pinned (SignedNumber types) uf' t := by
  induction h with
  | done uf => exact ⟨fun t ht => ht, fun t ht => absurd ht List.not_mem_nil⟩
  | fresh f rest ih => exact ⟨fun t ht => ih.1 t (pinned_fresh ht), ih.2⟩
  | resolve hr rest ih =>
    refine ⟨fun t ht => ih.1 t ?_, ih.2⟩
    have hkept : Keeps types (SignedNumber types) _ _ := .of_compressed (resolve_spec hr).2
    exact hkept.pinned t ht
  | unify hu rest ih => exact ⟨fun t ht => ih.1 t (pinned_unify kept_signedNumber hu ht), ih.2⟩
  | negate operand hcheck hneg rest ihOperand ih =>
    obtain ⟨hmarked, hkeep⟩ := checkNegate_signed hcheck hneg
    constructor
    · intro t ht
      exact ih.1 t (hkeep t (ihOperand.1 t (pinned_fresh ht)))
    · intro t ht
      rcases List.mem_append.mp ht with ht | ht
      · exact ih.1 t (hkeep t (ihOperand.2 t ht))
      · rcases List.mem_cons.mp ht with rfl | ht
        · exact ih.1 _ hmarked
        · exact ih.2 t ht

/-! ### The type in the end -/

/-- A signed integer or a float. -/
def IsSignedTy (ty : Mir.Ty) : Prop :=
  (∃ size, ty = .primitive (.int .signed size)) ∨ ∃ size, ty = .primitive (.float size)

theorem convert_signedNumber {t : Typ} (h : Pinned (SignedNumber types) uf t) :
    ∃ ty, IsSignedTy ty ∧ ∃ least, ∀ fuel ≥ least, ∃ uf',
      convert types fuel uf t = some (some ty, uf') := by
  obtain ⟨r, hr, hsigned⟩ := h
  obtain ⟨n, uf₁, hres⟩ := resolve_of_resolves hr
  have hconvert : ∃ ty, IsSignedTy ty ∧
      ∀ f, convertResolved types f uf₁ r = some (some ty, uf₁) := by
    rcases hsigned with (⟨k, s, rfl, -⟩ | ⟨k, size, ⟨m, as, rfl, hm⟩, hyes⟩) |
      ⟨k, rfl⟩ | ⟨size, m, as, rfl, hm⟩
    · exact ⟨_, .inl ⟨.i32, rfl⟩, fun f => rfl⟩
    · obtain rfl := hyes rfl
      exact ⟨_, .inl ⟨size, rfl⟩, fun f => by simp only [convertResolved, hm]⟩
    · exact ⟨_, .inr ⟨.f64, rfl⟩, fun f => rfl⟩
    · exact ⟨_, .inr ⟨size, rfl⟩, fun f => by simp only [convertResolved, hm]⟩
  obtain ⟨ty, hty, hconv⟩ := hconvert
  refine ⟨ty, hty, n + 1, ?_⟩
  intro fuel hfuel
  refine ⟨uf₁, Mono.le (convert_mono types) hfuel ?_⟩
  simp only [convert, hres, hconv]

/-- The operand of every minus converts to a signed integer or a float, whatever the checker did
before and after it. -/
theorem negation_signed (types : TypeMap) (uf uf' : UnionFind) (operands : List Typ)
    (h : Checking types uf operands uf') :
    ∀ operand ∈ operands, ∃ ty, IsSignedTy ty ∧ ∃ least, ∀ fuel ≥ least, ∃ uf'',
      convert types fuel uf' operand = some (some ty, uf'') :=
  fun operand hmem => convert_signedNumber (h.pinned.2 operand hmem)

def i64Only : TypeMap := [(⟨ScopeRef.GLOBAL, "i64"⟩, .primitive (.int .signed .i64))]

theorem one_checked : checkInteger i64Only 3 none ⟨[.var 0, .var 1]⟩ (.var 1) =
    some (.ok (), ⟨[.var 0, .intVar 2 .no, .intVar 2 .no]⟩) := rfl

theorem one_unified : unify i64Only 3 ⟨[.var 0, .var 1, .intVar 2 .no]⟩ (.var 1) (.intVar 2 .no) =
    some (.ok (.intVar 2 .no), ⟨[.var 0, .intVar 2 .no, .intVar 2 .no]⟩) := rfl

theorem minus_checked : checkNegate i64Only 3 (checkInteger i64Only 3 none) ⟨[.var 0]⟩ (.var 0) =
    some (.ok (), ⟨[.intVar 2 .yes, .intVar 2 .no, .intVar 2 .yes]⟩) := rfl

theorem minus_named : unify i64Only 3 ⟨[.intVar 2 .yes, .intVar 2 .no, .intVar 2 .yes]⟩ (.var 0)
      (.named "i64" []) =
    some (.ok (.named "i64" []),
      ⟨[.intVar 2 .yes, .intVar 2 .no, .named "i64" []]⟩) := rfl

/-- The run for `let x: i64 = -1;`, with the type of the variable unified last. -/
theorem minus_one_run : Checking i64Only .empty [.var 1]
    ⟨[.intVar 2 .yes, .intVar 2 .no, .named "i64" []]⟩ :=
  .fresh .var <| .negate (.fresh (fun n => .intVar n .no) (.unify one_unified (.done _)))
    one_checked minus_checked (.unify minus_named (.done _))

theorem negation_signed_minus_one : ∃ ty, IsSignedTy ty ∧ ∃ least, ∀ fuel ≥ least, ∃ uf'',
    convert i64Only fuel ⟨[.intVar 2 .yes, .intVar 2 .no, .named "i64" []]⟩ (.var 1) =
      some (some ty, uf'') :=
  negation_signed _ _ _ _ minus_one_run (.var 1) (List.mem_singleton_self _)

end Roto.TypeChecker
