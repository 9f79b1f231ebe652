import RotoCompiler.Ast
import RotoCompiler.Parser.Literals
import RotoCompiler.TypeChecker.Convert
import RotoCompiler.TypeChecker.Info
import RotoCompiler.TypeChecker.KeptTypes

/-!
# Integer literals in the type checker (typechecker/expr.rs, literal and Negate)

A literal gets the type of its suffix, or an integer variable. Negation marks the variable of
its operand, so that the variable does not become an unsigned type later.
-/

namespace Roto.Ast

def IntType.prim : IntType → Primitive
  | i8 => .int .signed .i8
  | i16 => .int .signed .i16
  | i32 => .int .signed .i32
  | i64 => .int .signed .i64
  | u8 => .int .unsigned .i8
  | u16 => .int .unsigned .i16
  | u32 => .int .unsigned .i32
  | u64 => .int .unsigned .i64

end Roto.Ast

namespace Roto.TypeChecker
open Ast (IntType)
open UnionFind

/-- Declarations with the integer types of `default_types`. -/
structure BuiltinDeclarations extends Declarations where
  ints : ∀ ty : IntType, types.resolveTypeName ⟨ScopeRef.GLOBAL, ty.ident⟩ = some (.primitive ty.prim)

inductive CheckError where
  | mismatchedTypes (a b : Typ)
  | simple (description label : String)
  | expectedNumericValue (ty : Typ)
  deriving Repr

/-- The answer of a check, with the store it leaves behind; `none` when it does not return. -/
abbrev CheckResult := Option (Except CheckError Unit × UnionFind)

/-- `unify` with the error of the checker. -/
def checkUnify (types : TypeMap) (fuel : ℕ) (uf : UnionFind) (a b : Typ) : CheckResult :=
  match unify types fuel uf a b with
  | none => none
  | some (.error (a, b), uf) => some (.error (.mismatchedTypes a b), uf)
  | some (.ok _, uf) => some (.ok (), uf)

/-- `TypeChecker::literal`, for an integer. -/
def checkInteger (types : TypeMap) (fuel : ℕ) (ty : Option IntType) (uf : UnionFind)
    (expected : Typ) : CheckResult :=
  match ty with
  | some ty => checkUnify types fuel uf expected (.named ty.ident [])
  | none =>
    let (t, uf) := uf.fresh fun n => .intVar n .no
    checkUnify types fuel uf expected t

/-- Whether a resolved type is an unsigned integer type; `none` is the `ice!`. -/
def isUnsigned (types : TypeMap) : Typ → Option Bool
  | .name n _ =>
    match types.resolveTypeName n with
    | none => none
    | some d => some (d.isInt && !d.isSignedInt)
  | _ => some false

/-- `TypeInfo::is_numeric_type`. -/
def isNumericType (types : TypeMap) (fuel : ℕ) (uf : UnionFind) (ty : Typ) :
    Option (Bool × UnionFind) :=
  match uf.resolve fuel ty with
  | none => none
  | some (.floatVar _, uf) => some (true, uf)
  | some (.intVar _ _, uf) => some (true, uf)
  | some (.name n _, uf) =>
    match types.resolveTypeName n with
    | none => none
    | some d => some (d.isFloat || d.isInt, uf)
  | some (_, uf) => some (false, uf)

/-- The mark on an integer variable that is negated. -/
def markSigned (uf : UnionFind) : Typ → UnionFind
  | .intVar i .no => uf.set i (.intVar i .yes)
  | _ => uf

/-- The arm of `TypeChecker::expr` for `Negate`, with the check of the operand. -/
def checkNegate (types : TypeMap) (fuel : ℕ) (checkOperand : UnionFind → Typ → CheckResult)
    (uf : UnionFind) (expected : Typ) : CheckResult :=
  let (operand, uf) := uf.fresh .var
  match checkOperand uf operand with
  | none => none
  | some (.error e, uf) => some (.error e, uf)
  | some (.ok (), uf) =>
    match uf.resolve fuel operand with
    | none => none
    | some (operandTy, uf) =>
      match isUnsigned types operandTy with
      | none => none
      | some true =>
        some (.error (.simple "cannot apply `-` to unsigned integer type" "cannot apply `-`"), uf)
      | some false =>
        match isNumericType types fuel uf operandTy with
        | none => none
        | some (false, uf) => some (.error (.expectedNumericValue operandTy), uf)
        | some (true, uf) => checkUnify types fuel (markSigned uf operandTy) expected operandTy

/-- The check of a literal, maybe under a minus. -/
def checkLiteral (types : TypeMap) (fuel : ℕ) (negated : Bool) (ty : Option IntType)
    (uf : UnionFind) (expected : Typ) : CheckResult :=
  if negated then checkNegate types fuel (checkInteger types fuel ty) uf expected
  else checkInteger types fuel ty uf expected

/-! ### Integer types -/

variable {types : TypeMap} {uf uf' : UnionFind} {fuel : ℕ}

/-- A name whose definition is this primitive. -/
def IsPrim (types : TypeMap) (p : Primitive) (t : Typ) : Prop :=
  ∃ n as, t = .name n as ∧ types.resolveTypeName n = some (.primitive p)

theorem IsPrim.not_recordLike {p : Primitive} {t : Typ} (h : IsPrim types p t) :
    ¬ RecordLike types t := by
  rintro ⟨fs, hfs⟩
  obtain ⟨n, as, rfl, hn⟩ := h
  cases hfs with
  | name hd hf =>
    rw [hn] at hd
    obtain rfl := Option.some.inj hd
    cases hf

theorem kept_isPrim (p : Primitive) : Kept types (IsPrim types p) where
  notRecord := fun _ h => h.not_recordLike
  bound := by
    rintro _ b v t ⟨n, as, rfl, -⟩ hv
    cases hv
  marked := by
    rintro n ⟨m, as, h, -⟩
    cases h

/-- An integer type that is signed if it must be. -/
def IntOf (types : TypeMap) (s : MustBeSigned) (t : Typ) : Prop :=
  (∃ n s', t = .intVar n s' ∧ (s = .yes → s' = .yes)) ∨
    ∃ k size, IsPrim types (.int k size) t ∧ (s = .yes → k = .signed)

theorem IntOf.mono {s s' : MustBeSigned} {t : Typ} (h : IntOf types s t)
    (hs : s' = .yes → s = .yes) : IntOf types s' t := by
  rcases h with ⟨n, s₁, rfl, hyes⟩ | ⟨k, size, hprim, hyes⟩
  · exact .inl ⟨n, s₁, rfl, fun h => hyes (hs h)⟩
  · exact .inr ⟨k, size, hprim, fun h => hyes (hs h)⟩

theorem intOf_of_unifyIntName {n v : ℕ} {s : MustBeSigned} {m : ResolvedName} {as : List Typ}
    {t : Typ} (h : unifyIntName types n s m as = some (.bind v t)) : IntOf types s t := by
  unfold unifyIntName at h
  by_cases has : as ≠ []
  · rw [if_pos has] at h
    cases h
  rw [if_neg has] at h
  cases hd : types.resolveTypeName m with
  | none => simp [hd] at h
  | some d =>
    simp only [hd] at h
    have hint : d.isInt = true ∧ (s = .yes → d.isSignedInt = true) ∧ t = .name m as := by
      have hsigned : d.isSignedInt = true → d.isInt = true := by
        intro hsigned
        cases d with
        | primitive p => cases p <;> first | rfl | cases hsigned
        | _ => cases hsigned
      split_ifs at h with hs hd' hd'
      · obtain ⟨-, rfl⟩ := Rule.bind.inj (Option.some.inj h)
        exact ⟨hsigned hd', fun _ => hd', rfl⟩
      · cases h
      · obtain ⟨-, rfl⟩ := Rule.bind.inj (Option.some.inj h)
        exact ⟨hd', fun h => absurd h hs, rfl⟩
      · cases h
    obtain ⟨hisInt, hsigned, rfl⟩ := hint
    cases d with
    | primitive p =>
      cases p with
      | int k size =>
        refine .inr ⟨k, size, ⟨m, as, rfl, hd⟩, fun hs => ?_⟩
        cases k with
        | signed => rfl
        | unsigned => exact nomatch hsigned hs
      | _ => cases hisInt
    | _ => cases hisInt

/-- What an integer variable is bound to. -/
theorem intOf_of_bind {n v : ℕ} {s : MustBeSigned} {b t : Typ}
    (h : unifyArm types (.intVar n s) b = some (.bind v t) ∨
      unifyArm types b (.intVar n s) = some (.bind v t)) : IntOf types s t := by
  have hself : IntOf types s (.intVar n s) := .inl ⟨n, s, rfl, fun h => h⟩
  cases b with
  | intVar m s' =>
    rcases h with h | h
    · unfold unifyArm at h
      split_ifs at h with heq
      · cases h
      dsimp only at h
      unfold unifyIntvars at h
      split_ifs at h with hs
      · obtain ⟨-, rfl⟩ := Rule.bind.inj (Option.some.inj h)
        exact hself
      · obtain ⟨-, rfl⟩ := Rule.bind.inj (Option.some.inj h)
        refine .inl ⟨m, s', rfl, fun hyes => ?_⟩
        cases s' with
        | yes => rfl
        | no => exact absurd ⟨hyes, rfl⟩ hs
    · unfold unifyArm at h
      split_ifs at h with heq
      · cases h
      dsimp only at h
      unfold unifyIntvars at h
      split_ifs at h with hs
      · obtain ⟨-, rfl⟩ := Rule.bind.inj (Option.some.inj h)
        exact .inl ⟨m, s', rfl, fun _ => hs.1⟩
      · obtain ⟨-, rfl⟩ := Rule.bind.inj (Option.some.inj h)
        exact hself
  | name m as =>
    rcases h with h | h
    · exact intOf_of_unifyIntName h
    · exact intOf_of_unifyIntName h
  | var m =>
    rcases h with h | h
    · obtain ⟨-, rfl⟩ := Rule.bind.inj (Option.some.inj h)
      exact hself
    · obtain ⟨-, rfl⟩ := Rule.bind.inj (Option.some.inj h)
      exact hself
  | _ => rcases h with h | h <;> cases h

theorem IntOf.not_recordLike {s : MustBeSigned} {t : Typ} (h : IntOf types s t) :
    ¬ RecordLike types t := by
  rcases h with ⟨n, s', rfl, -⟩ | ⟨k, size, hprim, -⟩
  · exact not_recordLike_of_var (fun _ _ h => nomatch h) rfl
  · exact hprim.not_recordLike

theorem kept_intOf (s : MustBeSigned) : Kept types (IntOf types s) where
  notRecord := fun _ h => h.not_recordLike
  bound := by
    rintro a b v t (⟨n, s', rfl, hyes⟩ | ⟨k, size, ⟨n, as, rfl, -⟩, -⟩) hv h
    · exact (intOf_of_bind h).mono hyes
    · cases hv
  marked := by
    rintro n -
    exact .inl ⟨n, .yes, rfl, fun _ => rfl⟩

/-! ### What the checks accept -/

/-- Integer types that do not go by the arguments of a name. -/
structure IntSet (types : TypeMap) (P : Typ → Prop) : Prop extends Kept types P where
  notNever : ¬ P .never
  arguments : ∀ n as bs, P (.name n as) → P (.name n bs)
  noFunction : ∀ ps r, ¬ P (.function ps r)

theorem intSet_isPrim (p : Primitive) : IntSet types (IsPrim types p) where
  toKept := kept_isPrim p
  notNever := by
    rintro ⟨n, as, h, -⟩
    cases h
  arguments := by
    rintro n as bs ⟨m, as', h, hd⟩
    obtain ⟨rfl, rfl⟩ := Typ.name.inj h
    exact ⟨n, bs, rfl, hd⟩
  noFunction := by
    rintro ps r ⟨n, as, h, -⟩
    cases h

theorem intSet_intOf (s : MustBeSigned) : IntSet types (IntOf types s) where
  toKept := kept_intOf s
  notNever := by
    rintro (⟨n, s', h, -⟩ | ⟨k, size, hprim, -⟩)
    · cases h
    · exact (intSet_isPrim _).notNever hprim
  arguments := by
    rintro n as bs (⟨m, s', h, -⟩ | ⟨k, size, hprim, hs⟩)
    · cases h
    · exact .inr ⟨k, size, (intSet_isPrim _).arguments n as bs hprim, hs⟩
  noFunction := by
    rintro ps r (⟨n, s', h, -⟩ | ⟨k, size, hprim, -⟩)
    · cases h
    · exact (intSet_isPrim _).noFunction ps r hprim

def IsNever (t : Typ) : Prop := t = .never

theorem kept_never : Kept types IsNever where
  notRecord := by
    rintro _ rfl ⟨fs, hfs⟩
    cases hfs
  bound := by
    rintro _ b v t rfl hv
    cases hv
  marked := by
    intro n h
    cases h

/-- Unification with an integer type makes the other side one of the same kind, if it is not
of the never type. -/
theorem pinned_of_unify {P : Typ → Prop} (hP : IntSet types P) {a b t : Typ}
    (hb : Pinned P uf b) (h : unify types fuel uf a b = some (.ok t, uf')) :
    Pinned IsNever uf' a ∨ Pinned P uf' a := by
  unfold unify at h
  cases fuel with
  | zero => cases h
  | succ fuel =>
  cases hu : unifyInner types (fuel + 1) uf a b with
  | none => simp [hu] at h
  | some q =>
  obtain ⟨o, uf₃⟩ := q
  rw [hu] at h
  cases o with
  | none =>
    dsimp only at h
    cases ha : uf₃.resolve (fuel + 1) a with
    | none => simp [ha] at h
    | some ra =>
      simp only [ha] at h
      cases hb : ra.2.resolve (fuel + 1) b with
      | none => simp [hb] at h
      | some rb => simp [hb] at h
  | some u =>
  obtain ⟨-, rfl⟩ := Prod.mk.inj (Option.some.inj h)
  clear h
  unfold unifyInner at hu
  cases ha : uf.resolve fuel a with
  | none => simp [ha] at hu
  | some ra =>
  obtain ⟨a', uf₁⟩ := ra
  simp only [ha] at hu
  cases hb' : uf₁.resolve fuel b with
  | none => simp [hb'] at hu
  | some rb =>
  obtain ⟨b', uf₂⟩ := rb
  simp only [hb'] at hu
  obtain ⟨hra, hca⟩ := resolve_spec ha
  obtain ⟨hrb, hcb⟩ := resolve_spec hb'
  have hra : uf₂.Resolves a a' := (Resolves.compressed (hca.trans hcb)).mpr hra
  have hrb : uf₂.Resolves b b' := (Resolves.compressed hcb).mpr hrb
  have hPb : P b' := by
    have hkept : Keeps types P _ _ := .of_compressed (hca.trans hcb)
    obtain ⟨r, hr, hPr⟩ := hkept.pinned b hb
    exact hrb.unique hr ▸ hPr
  cases harm : unifyArm types a' b' with
  | none => simp [harm] at hu
  | some rule =>
  rw [harm] at hu
  have hcases := arm_of_unifyArm harm
  cases hcases with
  | same a' =>
    obtain ⟨-, rfl⟩ := Prod.mk.inj (Option.some.inj hu)
    exact .inr ⟨_, hra, hPb⟩
  | neverLeft hne =>
    obtain ⟨-, rfl⟩ := Prod.mk.inj (Option.some.inj hu)
    exact .inl ⟨_, hra, rfl⟩
  | neverRight hne => exact absurd hPb hP.notNever
  | @bindLeft _ _ v hne hnever hv =>
    obtain ⟨-, rfl⟩ := Prod.mk.inj (Option.some.inj hu)
    refine .inr ⟨b', Resolves.set_self (hra.unset hv) hv hra hv ?_, hPb⟩
    cases hk : b'.varIndex with
    | none => exact .inl ⟨hk, rfl⟩
    | some k =>
      have hkv : v ≠ k := by
        rintro rfl
        have hslot := hra.unset hv
        rw [hrb.unset hk] at hslot
        exact hne (Option.some.inj hslot).symm
      refine .inr ⟨k, hk, Root.of_unset ?_ hk⟩
      rw [inner_set_ne hkv]
      exact hrb.unset hk
  | @bindRight _ _ v hne hnever hv =>
    obtain ⟨-, rfl⟩ := Prod.mk.inj (Option.some.inj hu)
    have hav : a'.varIndex ≠ some v := by
      intro ha'v
      have hslot := hra.unset ha'v
      rw [hrb.unset hv] at hslot
      exact hne (Option.some.inj hslot).symm
    exact .inr ⟨a', hra.set_other (hrb.unset hv) hv hav, hP.bound b' a' v a' hPb hv (.inr harm)⟩
  | fieldsLeft hne hfields => exact absurd ⟨_, hfields⟩ (hP.notRecord _ hPb)
  | fieldsRight => exact absurd ⟨_, .recordVar _ _⟩ (hP.notRecord _ hPb)
  | fieldsRightName hfields => exact absurd ⟨_, .recordVar _ _⟩ (hP.notRecord _ hPb)
  | @names n as bs hne =>
    dsimp only at hu
    cases hps : unifyPairs (unifyInner types fuel) uf₂ (as.zip bs) with
    | none => simp [hps] at hu
    | some r =>
      obtain ⟨o, uf₄⟩ := r
      rw [hps] at hu
      cases o with
      | none => cases hu
      | some _ =>
        obtain ⟨-, rfl⟩ := Prod.mk.inj (Option.some.inj hu)
        have hkeeps := keeps_unifyPairs (keeps_unifyInner hP.toKept fuel) hps
        exact .inr (hkeeps.pinned a ⟨_, hra, hP.arguments n bs as hPb⟩)
  | functions hne => exact absurd hPb (hP.noFunction _ _)
  | fail _ _ hne => cases hu

/-- The types of a literal with a suffix or without. -/
def OfSuffix (types : TypeMap) : Option IntType → Typ → Prop
  | some ty => IsPrim types ty.prim
  | none => IntOf types .no

theorem intSet_ofSuffix (suffix : Option IntType) : IntSet types (OfSuffix types suffix) := by
  cases suffix with
  | some ty => exact intSet_isPrim ty.prim
  | none => exact intSet_intOf .no

theorem OfSuffix.intOf {suffix : Option IntType} {t : Typ} (h : OfSuffix types suffix t) :
    IntOf types .no t := by
  cases suffix with
  | none => exact h
  | some ty =>
    obtain ⟨k, size, hprim⟩ : ∃ k size, ty.prim = .int k size := by
      cases ty <;> exact ⟨_, _, rfl⟩
    refine .inr ⟨k, size, ?_, fun h => nomatch h⟩
    rw [← hprim]
    exact h

theorem unify_of_checkUnify {a b : Typ} (h : checkUnify types fuel uf a b = some (.ok (), uf')) :
    ∃ t, unify types fuel uf a b = some (.ok t, uf') := by
  unfold checkUnify at h
  cases hu : unify types fuel uf a b with
  | none => simp [hu] at h
  | some r =>
    obtain ⟨e, uf₁⟩ := r
    cases e with
    | error e => simp [hu] at h
    | ok t =>
      simp only [hu, Option.some.injEq, Prod.mk.injEq, true_and] at h
      exact ⟨t, by rw [h]⟩

theorem pinned_fresh_self (f : ℕ → Typ) (hf : ∀ n, (f n).varIndex = some n) {P : Typ → Prop}
    (hP : P (f uf.inner.length)) : Pinned P (uf.fresh f).2 (uf.fresh f).1 := by
  have hslot : (uf.fresh f).2.inner[uf.inner.length]? = some (f uf.inner.length) := by
    simp [UnionFind.fresh]
  exact ⟨_, .inr ⟨uf.inner.length, hf _, Root.of_unset hslot (hf _)⟩, hP⟩

/-- An accepted literal has its type, or the never type. -/
theorem checkInteger_pinned (D : BuiltinDeclarations) {suffix : Option IntType} {expected : Typ}
    (h : checkInteger D.types fuel suffix uf expected = some (.ok (), uf')) :
    Pinned IsNever uf' expected ∨ Pinned (OfSuffix D.types suffix) uf' expected := by
  cases suffix with
  | some ty =>
    obtain ⟨t, hu⟩ := unify_of_checkUnify h
    refine pinned_of_unify (intSet_ofSuffix (some ty)) ?_ hu
    exact ⟨_, .inl ⟨rfl, rfl⟩, _, _, rfl, D.ints ty⟩
  | none =>
    obtain ⟨t, hu⟩ := unify_of_checkUnify h
    refine pinned_of_unify (intSet_ofSuffix none) ?_ hu
    have hint : IntOf D.types .no (.intVar uf.inner.length .no) := .inl ⟨_, .no, rfl, fun h => h⟩
    exact pinned_fresh_self (fun n => .intVar n .no) (fun _ => rfl) hint

/-- A type that is not unsigned and is pinned to an integer type is signed from now on. -/
theorem pinned_markSigned {operand r : Typ} (hr : uf.Resolves operand r)
    (hint : IntOf types .no r) (hunsigned : isUnsigned types r = some false) :
    Pinned (IntOf types .yes) (markSigned uf r) operand := by
  rcases hint with ⟨n, s, rfl, -⟩ | ⟨k, size, ⟨n, as, rfl, hn⟩, -⟩
  · cases s with
    | yes => exact ⟨_, hr, .inl ⟨n, .yes, rfl, fun h => h⟩⟩
    | no =>
      have hslot := hr.unset (k := n) rfl
      have hlt : n < uf.inner.length := (List.getElem?_eq_some_iff.mp hslot).1
      have hself : (uf.set n (.intVar n .yes)).Resolves (.intVar n .yes) (.intVar n .yes) :=
        .inr ⟨n, rfl, Root.of_unset (inner_set_self hlt) rfl⟩
      exact ⟨_, hr.set_self hslot rfl rfl hself, .inl ⟨n, .yes, rfl, fun h => h⟩⟩
  · refine ⟨_, hr, .inr ⟨k, size, ⟨n, as, rfl, hn⟩, fun _ => ?_⟩⟩
    cases k with
    | signed => rfl
    | unsigned =>
      simp only [isUnsigned, hn] at hunsigned
      cases hunsigned

theorem keeps_markSigned {P : Typ → Prop} (hP : Kept types P) {operand r t : Typ}
    (hr : uf.Resolves operand r) (h : Pinned P uf t) : Pinned P (markSigned uf r) t := by
  unfold markSigned
  split
  · exact pinned_mark hP (hr.unset rfl) h
  · exact h

/-- A type that `is_numeric_type` accepts. -/
def Numeric (types : TypeMap) (t : Typ) : Prop :=
  (∃ n, t = .floatVar n) ∨ (∃ n s, t = .intVar n s) ∨
    ∃ n as d, t = .name n as ∧ types.resolveTypeName n = some d ∧ (d.isFloat || d.isInt) = true

theorem isNumericType_true {t : Typ} (h : isNumericType types fuel uf t = some (true, uf')) :
    ∃ r, uf.Resolves t r ∧ uf.Compressed uf' ∧ Numeric types r := by
  unfold isNumericType at h
  cases hres : uf.resolve fuel t with
  | none => simp [hres] at h
  | some q =>
    obtain ⟨r, uf₁⟩ := q
    obtain ⟨hr, hc⟩ := resolve_spec hres
    rw [hres] at h
    cases r with
    | floatVar n =>
      obtain ⟨-, rfl⟩ := Prod.mk.inj (Option.some.inj h)
      exact ⟨_, hr, hc, .inl ⟨n, rfl⟩⟩
    | intVar n s =>
      obtain ⟨-, rfl⟩ := Prod.mk.inj (Option.some.inj h)
      exact ⟨_, hr, hc, .inr (.inl ⟨n, s, rfl⟩)⟩
    | name n as =>
      dsimp only at h
      cases hd : types.resolveTypeName n with
      | none => simp [hd] at h
      | some d =>
        simp only [hd, Option.some.injEq, Prod.mk.injEq] at h
        exact ⟨_, hr, h.2 ▸ hc, .inr (.inr ⟨n, as, d, rfl, hd, h.1⟩)⟩
    | _ => simp at h

/-- What an accepted minus did after the check of its operand. -/
theorem checkNegate_run {checkOperand : UnionFind → Typ → CheckResult} {expected : Typ}
    (h : checkNegate types fuel checkOperand uf expected = some (.ok (), uf')) :
    ∃ uf₁ uf₂ operandTy t, checkOperand (uf.fresh .var).2 (uf.fresh .var).1 = some (.ok (), uf₁) ∧
      uf₁.Resolves (uf.fresh .var).1 operandTy ∧ uf₁.Compressed uf₂ ∧
      uf₂.Resolves operandTy operandTy ∧ isUnsigned types operandTy = some false ∧
      Numeric types operandTy ∧
      unify types fuel (markSigned uf₂ operandTy) expected operandTy = some (.ok t, uf') := by
  unfold checkNegate at h
  dsimp only at h
  generalize uf.fresh .var = fresh at h ⊢
  obtain ⟨operand, uf₀⟩ := fresh
  dsimp only at h ⊢
  cases hcheck : checkOperand uf₀ operand with
  | none => simp [hcheck] at h
  | some r₁ =>
  obtain ⟨e, uf₁⟩ := r₁
  rw [hcheck] at h
  cases e with
  | error e => simp at h
  | ok _ =>
  dsimp only at h
  cases hres : uf₁.resolve fuel operand with
  | none => simp [hres] at h
  | some r₂ =>
  obtain ⟨operandTy, uf₂⟩ := r₂
  simp only [hres] at h
  cases hunsigned : isUnsigned types operandTy with
  | none => simp [hunsigned] at h
  | some b =>
  cases b with
  | true => simp [hunsigned] at h
  | false =>
  simp only [hunsigned] at h
  cases hnum : isNumericType types fuel uf₂ operandTy with
  | none => simp [hnum] at h
  | some r₃ =>
  obtain ⟨b, uf₃⟩ := r₃
  rw [hnum] at h
  cases b with
  | false => simp at h
  | true =>
  dsimp only at h
  obtain ⟨t, hu⟩ := unify_of_checkUnify h
  obtain ⟨hr, hc⟩ := resolve_spec hres
  obtain ⟨r', hr', hc', hnumeric⟩ := isNumericType_true hnum
  -- looking the type up again gives the same
  have hself : uf₂.Resolves operandTy operandTy := by
    cases hv : operandTy.varIndex with
    | none => exact .inl ⟨hv, rfl⟩
    | some k =>
      exact .inr ⟨k, hv, Root.of_unset (((Resolves.compressed hc).mpr hr).unset hv) hv⟩
  obtain rfl := hr'.unique hself
  exact ⟨uf₁, uf₃, r', t, rfl, hr, hc.trans hc', (Resolves.compressed hc').mpr hr', hunsigned,
    hnumeric, hu⟩

/-- An accepted literal under a minus has a signed type. -/
theorem checkNegate_pinned (D : BuiltinDeclarations) {suffix : Option IntType} {expected : Typ}
    (h : checkNegate D.types fuel (checkInteger D.types fuel suffix) uf expected =
      some (.ok (), uf')) :
    Pinned IsNever uf' expected ∨
      (Pinned (OfSuffix D.types suffix) uf' expected ∧ Pinned (IntOf D.types .yes) uf' expected) := by
  obtain ⟨uf₁, uf₂, operandTy, t, hcheck, hr, -, hself, hunsigned, hnumeric, hu⟩ :=
    checkNegate_run h
  have hnever : operandTy ≠ .never := by
    rintro rfl
    rcases hnumeric with ⟨n, h⟩ | ⟨n, s, h⟩ | ⟨n, as, d, h, -, -⟩ <;> cases h
  have hpinned : OfSuffix D.types suffix operandTy := by
    rcases checkInteger_pinned D hcheck with ⟨q, hq, hP⟩ | ⟨q, hq, hP⟩
    · exact absurd ((hq.unique hr).symm.trans hP) hnever
    · exact hq.unique hr ▸ hP
  have hsigned := pinned_markSigned hself hpinned.intOf hunsigned
  have hsuffix := keeps_markSigned (intSet_ofSuffix suffix).toKept hself ⟨_, hself, hpinned⟩
  rcases pinned_of_unify (intSet_ofSuffix suffix) hsuffix hu with h₁ | h₁
  · exact .inl h₁
  · rcases pinned_of_unify (intSet_intOf .yes) hsigned hu with h₂ | h₂
    · exact .inl h₂
    · exact .inr ⟨h₁, h₂⟩

theorem checkLiteral_pinned (D : BuiltinDeclarations) {negated : Bool} {suffix : Option IntType}
    {expected : Typ}
    (h : checkLiteral D.types fuel negated suffix uf expected = some (.ok (), uf')) :
    Pinned IsNever uf' expected ∨ (Pinned (OfSuffix D.types suffix) uf' expected ∧
      (negated = true → Pinned (IntOf D.types .yes) uf' expected)) := by
  cases negated with
  | false =>
    rcases checkInteger_pinned D h with h | h
    · exact .inl h
    · exact .inr ⟨h, fun h => nomatch h⟩
  | true =>
    rcases checkNegate_pinned D h with h | h
    · exact .inl h
    · exact .inr ⟨h.1, fun _ => h.2⟩

/-! ### The type that is found in the end -/

theorem convert_resolves {t : Typ} {ty : Mir.Ty}
    (h : convert types fuel uf t = some (some ty, uf')) :
    ∃ r uf₁ f, uf.Resolves t r ∧ convertResolved types f uf₁ r = some (some ty, uf') := by
  cases fuel with
  | zero => cases h
  | succ fuel =>
    unfold convert at h
    cases hr : uf.resolve fuel t with
    | none => simp [hr] at h
    | some q =>
      obtain ⟨r, uf₁⟩ := q
      rw [hr] at h
      exact ⟨r, uf₁, _, (resolve_spec hr).1, h⟩

variable {k : IntKind} {size : IntSize}

theorem convert_never {t : Typ} (ht : Pinned IsNever uf t) :
    convert types fuel uf t ≠ some (some (.primitive (.int k size)), uf') := by
  intro h
  obtain ⟨r, uf₁, f, hr, hconv⟩ := convert_resolves h
  obtain ⟨q, hq, rfl⟩ := ht
  obtain rfl := hq.unique hr
  cases hconv

theorem convert_isPrim {p : Primitive} {t : Typ} {ty : Mir.Ty} (ht : Pinned (IsPrim types p) uf t)
    (h : convert types fuel uf t = some (some ty, uf')) : ty = .primitive p := by
  obtain ⟨r, uf₁, f, hr, hconv⟩ := convert_resolves h
  obtain ⟨q, hq, n, as, rfl, hn⟩ := ht
  obtain rfl := hq.unique hr
  unfold convertResolved at hconv
  simp only [hn, Option.some.injEq, Prod.mk.injEq] at hconv
  exact hconv.1.symm

theorem convert_intOf {s : MustBeSigned} {t : Typ} (ht : Pinned (IntOf types s) uf t)
    (h : convert types fuel uf t = some (some (.primitive (.int k size)), uf')) :
    s = .yes → k = .signed := by
  intro hs
  obtain ⟨r, hr, hP⟩ := ht
  rcases hP with ⟨n, s', rfl, -⟩ | ⟨k', size', hprim, hyes⟩
  · obtain ⟨q, uf₁, f, hq, hconv⟩ := convert_resolves h
    obtain rfl := hr.unique hq
    obtain ⟨hty, -⟩ := Prod.mk.inj (Option.some.inj hconv)
    cases hty
    rfl
  · have heq := convert_isPrim ⟨r, hr, hprim⟩ h
    cases heq
    exact hyes hs

end Roto.TypeChecker
