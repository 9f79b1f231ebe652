import RotoCompiler.Lir.EmittedCode
import RotoCompiler.Lir.Values
import RotoCompiler.TypeChecker.Literals

/-!
# Integer literals in the LIR (lir/lower.rs, literal and Negate)

The constant that is emitted for an integer literal is the parsed integer, cut to the width of
its type. Negation is an instruction of its own.
-/

namespace Roto.Lir
open Mir
open Ast (IntType Literal)
open Lib (IntRange Text)
open Roto.Parser (IntLiteral InvalidLiteral nextInner nextInner_wellCut)
open TypeChecker

def intIrType : IntKind → IntSize → IrType
  | .unsigned, .i8 => .u8
  | .unsigned, .i16 => .u16
  | .unsigned, .i32 => .u32
  | .unsigned, .i64 => .u64
  | .signed, .i8 => .i8
  | .signed, .i16 => .i16
  | .signed, .i32 => .i32
  | .signed, .i64 => .i64

/-- The cast of an `i64` with `as`. -/
def castInt (irTy : IrType) (x : ℤ) : IrValue := ⟨irTy, (x % 2 ^ (8 * irTy.bytes)).toNat⟩

/-- The arm of `Lowerer::literal` for integers; `none` is the `ice!`. -/
def integerLiteral (x : ℤ) : Ty → Option IrValue
  | .primitive (.int k s) => some (castInt (intIrType k s) x)
  | _ => none

/-- The arm of `Lowerer::value` for `Negate`. -/
def negate (rt : Rt) (var : Mir.Var) (ty : Ty) : Lower Operand := do
  let irTy ← unwrap (lowerType rt ty)
  let tmp ← newTmp irTy
  emit (.negate tmp (.place (lowerVar var)))
  return .place tmp

/-- A literal, maybe under a minus. The operand of a minus is assigned to a variable. -/
def lowerLiteral (rt : Rt) (negated : Bool) (x : ℤ) (ty : Ty) (var : Mir.Var) : Lower Operand := do
  let v ← unwrap (integerLiteral x ty)
  if negated then do
    moveVal rt (.var (lowerVar var)) (.value v) ty
    negate rt var ty
  else return .value v

/-! ### Reading an integer -/

/-- The integer in a register, at an integer type. -/
def IrValue.int (k : IntKind) (v : IrValue) : ℤ :=
  match k with
  | .unsigned => v.bits
  | .signed => v.signed

/-- The integers of a type. -/
def intRange (k : IntKind) (s : IntSize) : IntRange :=
  let width := 8 * (intIrType k s).bytes
  match k with
  | .unsigned => ⟨0, 2 ^ width - 1⟩
  | .signed => ⟨-2 ^ (width - 1), 2 ^ (width - 1) - 1⟩

/-- Cutting keeps exactly the integers of the type. -/
theorem castInt_int (k : IntKind) (s : IntSize) (x : ℤ) :
    (castInt (intIrType k s) x).int k = x ↔ x ∈ intRange k s := by
  cases k <;> cases s <;>
    simp only [castInt, IrValue.int, IrValue.signed, intRange, intIrType, IrType.bytes,
      IntRange.mem_def]
  all_goals norm_num
  all_goals omega

/-- The negation of a constant is the constant of the negated integer. -/
theorem castInt_negate (k : IntKind) (s : IntSize) (x : ℤ) :
    (castInt (intIrType k s) x).negate = castInt (intIrType k s) (-x) := by
  cases k <;> cases s <;>
    simp only [castInt, IrValue.negate, intIrType, IrType.bytes, IrType.isFloat,
      IrValue.mk.injEq, true_and, Bool.false_eq_true, if_false]
  all_goals norm_num
  all_goals omega

theorem lowerType_int (rt : Mir.Rt) (k : IntKind) (s : IntSize) :
    lowerType rt (.primitive (.int k s)) = some (intIrType k s) := by
  refine lowerType_scalar ?_
  cases k <;> cases s <;> rfl

/-! ### Running the code of a literal -/

/-- The code for a literal computes the value, whatever code it stands in. -/
def Computes (rt : Mir.Rt) (negated : Bool) (x : ℤ) (ty : Ty) (v : IrValue) : Prop :=
  ∀ (var : Mir.Var) (s : Lowerer), ∃ out s' code,
    lowerLiteral rt negated x ty var s = some (out, s') ∧
      s'.instructions = s.instructions ++ code ∧
      ∀ (p : Program) (env : Externs) (l : Locals), ∃ l',
        Executes p env code l l' ∧ l'.mem = l.mem ∧ l'.regs.operand out = some v

theorem Executes.unique {p : Program} {env : Externs} {code : List Instruction} {l l₁ l₂ : Locals}
    (h₁ : Executes p env code l l₁) (h₂ : Executes p env code l l₂) : l₁ = l₂ := by
  have heq := (h₁ [] [] [] 0).unique (h₂ [] [] [] 0) rfl rfl
  exact congrArg Machine.locals (Config.running.inj heq)

theorem Computes.unique {rt : Mir.Rt} {negated : Bool} {x : ℤ} {ty : Ty} {v w : IrValue}
    (hv : Computes rt negated x ty v) (hw : Computes rt negated x ty w) : v = w := by
  let ctx : LowerCtx := ⟨0, 0, [], [], [], []⟩
  let env : Externs := ⟨fun _ _ _ _ => 0, fun _ mem _ => mem, fun _ _ _ _ => false,
    fun _ mem _ _ => mem, fun _ mem _ => mem, fun _ _ mem => mem, fun _ => 0, fun _ => 0⟩
  obtain ⟨out, s, code, hrun, hcode, hexec⟩ := hv ⟨0, .tmp 0⟩ ctx.lowerer
  obtain ⟨out', s', code', hrun', hcode', hexec'⟩ := hw ⟨0, .tmp 0⟩ ctx.lowerer
  rw [hrun] at hrun'
  obtain ⟨rfl, rfl⟩ := Prod.mk.inj (Option.some.inj hrun')
  obtain rfl := List.append_cancel_left (hcode.symm.trans hcode')
  obtain ⟨l, hl, -, hout⟩ := hexec [] env ⟨fun _ => none, fun _ => 0, []⟩
  obtain ⟨l', hl', -, hout'⟩ := hexec' [] env ⟨fun _ => none, fun _ => 0, []⟩
  obtain rfl := hl.unique hl'
  exact Option.some.inj (hout.symm.trans hout')

theorem computes_castInt (rt : Mir.Rt) (negated : Bool) (x : ℤ) (k : IntKind) (s : IntSize) :
    Computes rt negated x (.primitive (.int k s))
      (castInt (intIrType k s) (if negated then -x else x)) := by
  intro var s₀
  cases negated with
  | false => exact ⟨_, s₀, [], rfl, (List.append_nil _).symm, fun p env l => ⟨l, .nil l, rfl, rfl⟩⟩
  | true =>
    have hvar : (lowerVar var).kind ≠ .context := by
      unfold lowerVar
      cases var.kind <;> exact fun h => nomatch h
    have hmove : moveVal rt (.var (lowerVar var)) (.value (castInt (intIrType k s) x))
        (.primitive (.int k s)) = emit (.assign (lowerVar var)
          (.value (castInt (intIrType k s) x)) (intIrType k s)) := by
      unfold moveVal
      rw [lowerType_int]
    have hneg : negate rt var (.primitive (.int k s)) = (do
        let tmp ← newTmp (intIrType k s)
        emit (.negate tmp (.place (lowerVar var)))
        return .place tmp) := by
      unfold negate
      rw [lowerType_int]
      rfl
    have hassign := Emits.emit (i := .assign (lowerVar var)
      (.value (castInt (intIrType k s) x)) (intIrType k s)) rfl s₀
    obtain ⟨s₁, hnegate, -⟩ := emits_tmp (intIrType k s)
      (fun tmp => .negate tmp (.place (lowerVar var))) Operand.place
      { s₀ with instructions := s₀.instructions ++ [.assign (lowerVar var)
        (.value (castInt (intIrType k s) x)) (intIrType k s)] } fun _ => rfl
    have hemits := hassign.bind (k := fun _ => _) hnegate
    rw [← hmove, ← hneg] at hemits
    refine ⟨_, s₁, _, hemits.run, hemits.instructions, fun p env l => ?_⟩
    have hfirst : env.exec l (.assign (lowerVar var) (.value (castInt (intIrType k s) x))
        (intIrType k s)) = some (l.set (lowerVar var) (castInt (intIrType k s) x)) := rfl
    have hread : (l.set (lowerVar var) (castInt (intIrType k s) x)).regs.operand
        (.place (lowerVar var)) = some (castInt (intIrType k s) x) := by
      simp [Regs.operand, hvar, Locals.set, Regs.set]
    have hsecond : env.exec (l.set (lowerVar var) (castInt (intIrType k s) x))
        (.negate ⟨s₀.functionScope, .tmp s₀.tmpIdx⟩ (.place (lowerVar var))) =
        some ((l.set (lowerVar var) (castInt (intIrType k s) x)).set
          ⟨s₀.functionScope, .tmp s₀.tmpIdx⟩ (castInt (intIrType k s) (-x))) := by
      rw [← castInt_negate]
      simp only [Externs.exec, hread]
      rfl
    exact ⟨_, (Executes.one hfirst).append (.one hsecond), rfl, operand_set_tmp _ _ _ _⟩

/-! ### Literals keep their value -/

/-- The integer that is written, with a minus or without. -/
def written (negated : Bool) (lit : IntLiteral) : ℤ :=
  if negated then -(lit.written : ℤ) else lit.written

/-- The literal is parsed to `n`, and the type checker has accepted it somewhere in a run, after
which its type was found to be an integer type. -/
inductive Accepted (D : BuiltinDeclarations) (parseF64 : Text → Except String ℕ)
    (negated : Bool) (lit : IntLiteral) : ℤ → Option IntType → IntKind → IntSize → Prop
  | mk {n : ℤ} {suffix : Option IntType} {k : IntKind} {size : IntSize} {ops : List Op}
      {log : List Binding} {uf uf₁ uf₂ uf₃ : UnionFind} {expected : Typ} {fuel fuel' : ℕ}
      (hparse : lit.parse parseF64 = .ok (.integer n suffix))
      (hrun : Run D.toDeclarations ops log uf)
      (hcheck : checkLiteral D.types fuel negated suffix uf expected = some (.ok (), uf₁))
      (hlater : Later D.toDeclarations uf₁ uf₂)
      (hconvert : convert D.types fuel' uf₂ expected =
        some (some (.primitive (.int k size)), uf₃)) :
      Accepted D parseF64 negated lit n suffix k size

/-- A literal for an integer of a type. -/
def Writable (rt : Mir.Rt) (D : BuiltinDeclarations) (parseF64 : Text → Except String ℕ)
    (k : IntKind) (size : IntSize) (x : ℤ) : Prop :=
  ∃ negated lit n suffix v, written negated lit = x ∧
    Accepted D parseF64 negated lit n suffix k size ∧
      Computes rt negated n (.primitive (.int k size)) v ∧ v.int k = x

theorem exists_intType : ∀ (k : IntKind) (size : IntSize), ∃ ty : IntType, ty.prim = .int k size
  | .unsigned, .i8 => ⟨.u8, rfl⟩
  | .unsigned, .i16 => ⟨.u16, rfl⟩
  | .unsigned, .i32 => ⟨.u32, rfl⟩
  | .unsigned, .i64 => ⟨.u64, rfl⟩
  | .signed, .i8 => ⟨.i8, rfl⟩
  | .signed, .i16 => ⟨.i16, rfl⟩
  | .signed, .i32 => ⟨.i32, rfl⟩
  | .signed, .i64 => ⟨.i64, rfl⟩

section
variable {D : BuiltinDeclarations} {parseF64 : Text → Except String ℕ} {negated : Bool}
  {lit : IntLiteral} {n : ℤ} {suffix : Option IntType} {k : IntKind} {size : IntSize}

theorem Accepted.written_eq (h : Accepted D parseF64 negated lit n suffix k size) :
    (if negated then -n else n) = written negated lit ∧ n ∈ Parser.i64Range ∧ 0 ≤ n := by
  obtain ⟨hparse, -, -, -, -⟩ := h
  obtain ⟨rfl, hrange⟩ := IntLiteral.parse_integer hparse
  exact ⟨rfl, hrange, Int.natCast_nonneg _⟩

/-- What the type checker says of the type of an accepted literal. -/
theorem Accepted.type (h : Accepted D parseF64 negated lit n suffix k size) :
    (∀ ty, suffix = some ty → Primitive.int k size = ty.prim) ∧ (negated = true → k = .signed) := by
  obtain ⟨-, -, hcheck, hlater, hconvert⟩ := h
  rcases checkLiteral_pinned D hcheck with hnever | ⟨hsuffix, hsigned⟩
  · exact absurd hconvert (convert_never (pinned_later kept_never hlater hnever))
  · constructor
    · rintro ty rfl
      have hpinned := pinned_later (kept_isPrim ty.prim) hlater hsuffix
      exact Ty.primitive.inj (convert_isPrim hpinned hconvert)
    · intro hneg
      have hpinned := pinned_later (kept_intOf .yes) hlater (hsigned hneg)
      exact convert_intOf hpinned hconvert rfl

/-- From the empty store, a literal with a suffix is accepted where its type is expected. -/
theorem checkLiteral_named (D : BuiltinDeclarations) {ty : IntType}
    (hsigned : negated = true → ∃ size, ty.prim = .int .signed size) :
    ∃ uf, checkLiteral D.types 2 negated (some ty) .empty (.named ty.ident []) =
      some (.ok (), uf) := by
  have hty := D.ints ty
  cases negated with
  | false =>
    refine ⟨.empty, ?_⟩
    simp [checkLiteral, checkInteger, checkUnify, unify, unifyInner, UnionFind.resolve,
      Typ.named, Typ.varIndex, unifyArm]
  | true =>
    obtain ⟨size, hprim⟩ := hsigned rfl
    rw [hprim] at hty
    refine ⟨⟨[.named ty.ident []]⟩, ?_⟩
    simp [checkLiteral, checkNegate, checkInteger, checkUnify, unify, unifyInner,
      UnionFind.resolve, UnionFind.fresh, UnionFind.find, UnionFind.empty, UnionFind.set,
      Typ.named, Typ.varIndex, unifyArm, isUnsigned, isNumericType, hty, markSigned,
      TypeDefinition.isInt, TypeDefinition.isSignedInt]

theorem convert_named (D : BuiltinDeclarations) (uf : UnionFind) (ty : IntType) :
    convert D.types 1 uf (.named ty.ident []) = some (some (.primitive ty.prim), uf) := by
  have hty := D.ints ty
  simp [convert, UnionFind.resolve, Typ.named, Typ.varIndex, convertResolved, hty]

end

/-- The lexer cuts an integer out as a literal. An accepted literal has the type of its suffix, and
a signed one under a minus; the code for it computes the integer that is written exactly when that
is in the range of the type. The integers of a type that can be written are the ones up to
`2 ^ 63 - 1` and down to its negation. -/
theorem literals_keep_value (rt : Mir.Rt) (D : BuiltinDeclarations)
    (parseF64 : Text → Except String ℕ) :
    (∀ u l tok span l', nextInner u l = some (some (some tok, span), l') →
      tok.isInteger = true → ∃ lit : IntLiteral, lit.token = tok) ∧
    (∀ negated lit n suffix k size, Accepted D parseF64 negated lit n suffix k size →
      (∀ ty, suffix = some ty → Primitive.int k size = ty.prim) ∧ (negated = true → k = .signed) ∧
      ∃ v, (∀ w, Computes rt negated n (.primitive (.int k size)) w ↔ w = v) ∧
        (v.int k = written negated lit ↔ written negated lit ∈ intRange k size)) ∧
    ∀ k size x, x ∈ intRange k size → (Writable rt D parseF64 k size x ↔ |x| < 2 ^ 63) := by
  refine ⟨fun u l tok span l' hnext hint => (nextInner_wellCut hnext).exists_literal hint, ?_, ?_⟩
  · intro negated lit n suffix k size h
    refine ⟨h.type.1, h.type.2, castInt (intIrType k size) (written negated lit), fun w => ?_,
      castInt_int k size _⟩
    have hcomputes := computes_castInt rt negated n k size
    rw [h.written_eq.1] at hcomputes
    refine ⟨fun hw => hw.unique hcomputes, ?_⟩
    rintro rfl
    exact hcomputes
  · intro k size x hx
    constructor
    · rintro ⟨negated, lit, n, suffix, v, hwritten, haccepted, -⟩
      obtain ⟨heq, ⟨-, hmax⟩, hnonneg⟩ := haccepted.written_eq
      have hmax : n ≤ 2 ^ 63 - 1 := hmax
      rw [← hwritten, ← heq]
      split_ifs
      · rw [abs_neg, abs_of_nonneg hnonneg]
        omega
      · rw [abs_of_nonneg hnonneg]
        omega
    · intro habs
      obtain ⟨ty, hty⟩ := exists_intType k size
      have hmem : (x.natAbs : ℤ) ∈ Parser.i64Range := by
        have hnat : (x.natAbs : ℤ) = |x| := Int.natCast_natAbs x
        refine ⟨?_, ?_⟩
        · show -2 ^ 63 ≤ (x.natAbs : ℤ)
          omega
        · show (x.natAbs : ℤ) ≤ 2 ^ 63 - 1
          omega
      obtain ⟨lit, hlit, hparse⟩ := IntLiteral.exists_literal x.natAbs hmem ty
      have hsigned : decide (x < 0) = true → ∃ size, ty.prim = .int .signed size := by
        intro hneg
        have hneg : x < 0 := by simpa using hneg
        cases k with
        | signed => exact ⟨size, hty⟩
        | unsigned =>
          have hmin : (0 : ℤ) ≤ x := hx.1
          omega
      obtain ⟨uf, hcheck⟩ := checkLiteral_named D hsigned
      have hwritten : written (decide (x < 0)) lit = x := by
        unfold written
        rw [hlit]
        split_ifs with hneg
        · have hneg : x < 0 := by simpa using hneg
          omega
        · have hneg : ¬ x < 0 := by simpa using hneg
          omega
      have hcomputes := computes_castInt rt (decide (x < 0)) x.natAbs k size
      have hvalue : (if decide (x < 0) = true then -(x.natAbs : ℤ) else x.natAbs) = x := by
        rw [← hlit]
        exact hwritten
      rw [hvalue] at hcomputes
      refine ⟨decide (x < 0), lit, x.natAbs, some ty, _, hwritten, ?_, hcomputes,
        (castInt_int k size x).mpr hx⟩
      have hconvert := convert_named D uf ty
      rw [hty] at hconvert
      exact .mk (hparse parseF64) .start hcheck .refl hconvert

/-- The integer types alone. -/
def intTypes : BuiltinDeclarations where
  types := [IntType.i8, .i16, .i32, .i64, .u8, .u16, .u32, .u64].map fun ty =>
    (⟨ScopeRef.GLOBAL, ty.ident⟩, .primitive ty.prim)
  wellFormed := by decide
  ints := by
    intro ty
    cases ty <;> rfl

def noFloats : Text → Except String ℕ := fun _ => .error "invalid float literal"

def literal255u8 : IntLiteral :=
  .decimal '2' ['5', '5'] ['u', '8'] rfl
    (by simp [Parser.isRotoDigit, Parser.isAsciiDigit])
def literal256u8 : IntLiteral :=
  .decimal '2' ['5', '6'] ['u', '8'] rfl
    (by simp [Parser.isRotoDigit, Parser.isAsciiDigit])

theorem accepted_u8 {lit : IntLiteral} {n : ℤ} (h : lit.parse noFloats = .ok (.integer n (some .u8))) :
    Accepted intTypes noFloats false lit n (some .u8) .unsigned .i8 := by
  have hsigned : false = true → ∃ size, IntType.u8.prim = .int .signed size := fun h => nomatch h
  obtain ⟨uf, hcheck⟩ := checkLiteral_named intTypes hsigned
  exact .mk h .start hcheck .refl (convert_named intTypes uf _)

/-- `255u8` keeps its value, and the largest `u64` cannot be written. -/
theorem literals_keep_value_255 :
    (∃ v, (∀ w, Computes pointerRt false 255 .u8 w ↔ w = v) ∧
      (v.int .unsigned = written false literal255u8 ↔
        written false literal255u8 ∈ intRange .unsigned .i8)) ∧
      ¬ Writable pointerRt intTypes noFloats .unsigned .i64 (2 ^ 64 - 1) := by
  obtain ⟨-, hkeeps, hwritable⟩ := literals_keep_value pointerRt intTypes noFloats
  refine ⟨(hkeeps false literal255u8 255 (some .u8) .unsigned .i8 (accepted_u8 rfl)).2.2, ?_⟩
  rw [hwritable .unsigned .i64 (2 ^ 64 - 1) (by decide)]
  decide

/-- `256u8` is accepted, and it is zero. -/
theorem literal256u8_loses_value :
    Accepted intTypes noFloats false literal256u8 256 (some .u8) .unsigned .i8 ∧
      Computes pointerRt false 256 .u8 ⟨.u8, 0⟩ ∧
      (IrValue.mk .u8 0).int .unsigned ≠ written false literal256u8 :=
  ⟨accepted_u8 rfl, computes_castInt pointerRt false 256 .unsigned .i8, by decide⟩

end Roto.Lir
