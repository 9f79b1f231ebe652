import RotoCompiler.Lir.EmittedCode
import RotoCompiler.Lir.Eq
import RotoCompiler.Lir.Values

/-!
# Structural equality

Two values are equal if they have the same discriminants and equal leaves. The code for a
comparison computes this, if the functions that it calls do.
-/

namespace Roto.Lir
open Mir
open Lib (Memory)

/-- The values of the types that are implemented in Rust, and what their equality functions
make of them. -/
structure RustValues (X : Type) (env : Externs) where
  holds : ℕ → Memory → ℕ → X → Prop
  eq : ℕ → X → X → Bool
  eqFn_eq : ∀ {id : ℕ} {mem : Memory} {a b : ℕ} {x y : X},
    holds id mem a x → holds id mem b y → env.eqFn id mem a b = eq id x y

/-- Equality in a register. -/
def scalarEq (irTy : IrType) (n m : ℕ) : Bool :=
  match irTy with
  | .f32 | .f64 => floatEq irTy.bytes n m
  | _ => n = m

variable (rt : Rt) {X : Type}

mutual

/-- Structural equality, with a given equality at the leaves. -/
def Value.eq (leafEq : ℕ → X → X → Bool) : Value X → Value X → Bool
  | .unit, .unit => true
  | .scalar irTy n, .scalar _ m => scalarEq irTy n m
  | .leaf ty x, .leaf _ y => (rustType rt ty).any fun id => leafEq id x y
  | .record vs, .record ws => Value.eqAll leafEq vs ws
  | .enum d vs, .enum e ws => d = e && Value.eqAll leafEq vs ws
  | _, _ => false

def Value.eqAll (leafEq : ℕ → X → X → Bool) : List (Value X) → List (Value X) → Bool
  | [], [] => true
  | v :: vs, w :: ws => Value.eq leafEq v w && Value.eqAll leafEq vs ws
  | _, _ => false

end

/-- The operand is a value: in a register, behind a pointer, or without a place if it takes no
space. -/
def Given {env : Externs} (R : RustValues X env) (l : Locals) (op : Operand) (ty : Ty)
    (v : Value X) : Prop :=
  match lowerType rt ty with
  | none => ∃ a, Holds rt R.holds l.mem ty a v
  | some .pointer =>
    ∃ a, l.regs.operand op = some (.pointer a) ∧ Holds rt R.holds l.mem ty a v
  | some irTy => ∃ bits, l.regs.operand op = some ⟨irTy, bits⟩ ∧ v = .scalar irTy bits

/-- The types that have a generated function. -/
def isGenerated : Ty → Bool
  | .record _ => true
  | .enum _ => true
  | _ => false

/-- What a comparison of values of a type puts into the queues. -/
def eqsOf (ty : Ty) : Queue → List Ty := if isGenerated ty then oneNew .eqs ty else noneNew

/-- The generated function for a type answers whether two values are equal. -/
def EqAnswers {env : Externs} (R : RustValues X env) (p : Program) (ty : Ty) : Prop :=
  ∀ (l : Locals) (a b : ℕ) (v w : Value X), Holds rt R.holds l.mem ty a v →
    Holds rt R.holds l.mem ty b w →
      Answers p env (.generatedEq ty) none [.pointer a, .pointer b] l
        (some (.bool (Value.eq rt R.eq v w))) l

variable {rt}

/-! ### Comparisons -/

theorem getRuntimeEq_eq (ty : Ty) : getRuntimeEq rt ty = rustType rt ty := by
  cases ty with
  | primitive p => cases p <;> rfl
  | _ => rfl

theorem isGenerated_of_pointer {ty : Ty} (h : lowerType rt ty = some .pointer)
    (hrust : rustType rt ty = none) : isGenerated ty = true := by
  cases ty with
  | primitive p =>
    have hscalar : ∀ irTy, scalarType p = some irTy → False := fun irTy hs =>
      scalarType_ne_pointer (hs.trans (Option.some.inj ((lowerType_scalar hs).symm.trans h) ▸ rfl))
    cases p with
    | int k s => exact (hscalar _ (scalarType_int k s).choose_spec).elim
    | float s => exact (hscalar _ (scalarType_float s).choose_spec).elim
    | string => cases hrust
    | ipAddr => cases hrust
    | ipPrefix => cases hrust
    | _ => exact (hscalar _ rfl).elim
  | unit =>
    have hnone : lowerType rt .unit = none := lowerType_zero rfl rfl
    rw [hnone] at h
    cases h
  | never => cases h
  | list => cases hrust
  | runtime => cases hrust
  | record => rfl
  | enum => rfl

/-- The comparison of two registers. -/
def cmpScalars (irTy : IrType) (negated : Bool) (left right : Operand) (dest : Var) :
    Instruction :=
  match irTy with
  | .f32 | .f64 => .floatCmp dest (if negated then .ne else .eq) left right
  | _ => .intCmp dest (if negated then .ne else .eq) left right

theorem callEqOf_scalar {ty : Ty} {irTy : IrType} (h : lowerType rt ty = some irTy)
    (hne : irTy ≠ .pointer) (negated : Bool) (left right : Operand) :
    callEqOf rt negated left right ty = (do
      let dest ← newTmp .bool
      emit (cmpScalars irTy negated left right dest)
      return .place dest) := by
  unfold callEqOf
  rw [h]
  cases irTy with
  | pointer => exact absurd rfl hne
  | _ => rfl

theorem exec_cmpScalars {env : Externs} {l : Locals} {irTy : IrType} {negated : Bool}
    {left right : Operand} {dest : Var} {n m : ℕ}
    (hleft : l.regs.operand left = some ⟨irTy, n⟩)
    (hright : l.regs.operand right = some ⟨irTy, m⟩) :
    env.exec l (cmpScalars irTy negated left right dest) =
      some (l.set dest (.bool (negated ^^ scalarEq irTy n m))) := by
  cases irTy <;> cases negated <;>
    simp [cmpScalars, Externs.exec, hleft, hright, IntCmp.holds, FloatCmp.holds, scalarEq]

theorem emitNot_emits (negated : Bool) (dest : Var) (s : Lowerer) :
    ∃ s', Emits (emitNot negated dest) s ()
      (if negated then [.not dest (.place dest)] else []) noneNew s' := by
  cases negated with
  | true => exact ⟨_, .emit rfl s⟩
  | false => exact ⟨_, .pure () s⟩

/-- A comparison into a new temporary, negated or not. -/
theorem Gives.negated {p : Program} {env : Externs} {s : Lowerer} {l : Locals} {i : Instruction}
    {b : Bool} (negated : Bool)
    (h : Executes p env [i] l (l.set ⟨s.functionScope, .tmp s.tmpIdx⟩ (.bool b))) :
    Gives p env s ([i] ++ if negated then [.not ⟨s.functionScope, .tmp s.tmpIdx⟩
      (.place ⟨s.functionScope, .tmp s.tmpIdx⟩)] else []) l
      (.place ⟨s.functionScope, .tmp s.tmpIdx⟩) (.bool (negated ^^ b)) := by
  have hkept := RegsKept.set_tmp s l.regs (.bool b)
  have hread := operand_set_tmp l.regs s.functionScope s.tmpIdx (.bool b)
  cases negated with
  | false =>
    refine ⟨l.set _ (.bool b), ⟨?_, hkept⟩, rfl, rfl, ?_⟩
    · simpa using h
    · rw [Bool.false_xor]
      exact hread
  | true =>
    have hnot : env.exec (l.set ⟨s.functionScope, .tmp s.tmpIdx⟩ (.bool b))
        (.not ⟨s.functionScope, .tmp s.tmpIdx⟩ (.place ⟨s.functionScope, .tmp s.tmpIdx⟩)) =
        some ((l.set ⟨s.functionScope, .tmp s.tmpIdx⟩ (.bool b)).set
          ⟨s.functionScope, .tmp s.tmpIdx⟩ (.bool (!b))) := by
      simp only [Externs.exec, Locals.set, hread]
      cases b <;> rfl
    refine ⟨_, ⟨h.append (.one hnot), fun v hv => ?_⟩, rfl, rfl, ?_⟩
    · exact (RegsKept.set_tmp s _ _ v hv).trans (hkept v hv)
    · rw [Bool.true_xor]
      exact operand_set_tmp _ s.functionScope s.tmpIdx _

theorem Given.scalar {env : Externs} {R : RustValues X env} {l : Locals} {op : Operand} {ty : Ty}
    {irTy : IrType} {v : Value X} (h : Given rt R l op ty v) (hlower : lowerType rt ty = some irTy)
    (hne : irTy ≠ .pointer) :
    ∃ n, l.regs.operand op = some ⟨irTy, n⟩ ∧ v = .scalar irTy n := by
  rw [Given, hlower] at h
  cases irTy with
  | pointer => exact absurd rfl hne
  | _ => exact h

theorem Given.of_scalar {env : Externs} {R : RustValues X env} {l : Locals} {op : Operand} {ty : Ty}
    {irTy : IrType} {n : ℕ} (hlower : lowerType rt ty = some irTy) (hne : irTy ≠ .pointer)
    (hn : l.regs.operand op = some ⟨irTy, n⟩) : Given rt R l op ty (.scalar irTy n) := by
  rw [Given, hlower]
  cases irTy with
  | pointer => exact absurd rfl hne
  | _ => exact ⟨n, hn, rfl⟩

theorem Given.of_pointer {env : Externs} {R : RustValues X env} {l : Locals} {op : Operand} {ty : Ty}
    {a : ℕ} {v : Value X} (hlower : lowerType rt ty = some .pointer)
    (ha : l.regs.operand op = some (.pointer a)) (hv : Holds rt R.holds l.mem ty a v) :
    Given rt R l op ty v := by
  rw [Given, hlower]
  exact ⟨a, ha, hv⟩

theorem Given.pointer {env : Externs} {R : RustValues X env} {l : Locals} {op : Operand} {ty : Ty}
    {v : Value X} (h : Given rt R l op ty v) (hlower : lowerType rt ty = some .pointer) :
    ∃ a, l.regs.operand op = some (.pointer a) ∧ Holds rt R.holds l.mem ty a v := by
  rw [Given, hlower] at h
  exact h

theorem Holds.scalar_inv {holds : ℕ → Memory → ℕ → X → Prop} {mem : Memory} {p : Primitive}
    {irTy : IrType} {a : ℕ} {v : Value X} (h : Holds rt holds mem (.primitive p) a v)
    (hp : scalarType p = some irTy) : v = .scalar irTy (mem.bits irTy.bytes a) := by
  cases h with
  | scalar hp' =>
    obtain rfl := Option.some.inj (hp'.symm.trans hp)
    rfl
  | leaf hid => cases p <;> cases hid <;> cases hp

/-- A comparison that is put into a new temporary and negated there. -/
theorem emits_negated (i : Var → Instruction) (h : ∀ v, (i v).isTerminator = false)
    {generate : Lower Unit} {new : Queue → List Ty}
    (hgenerate : ∀ s, ∃ s', Emits generate s () [] new s') (negated : Bool) (s : Lowerer) :
    ∃ s', Emits (do
        let dest ← newTmp .bool
        emit (i dest)
        generate
        emitNot negated dest
        return Operand.place dest) s (.place ⟨s.functionScope, .tmp s.tmpIdx⟩)
      ([i ⟨s.functionScope, .tmp s.tmpIdx⟩] ++
        if negated then [.not ⟨s.functionScope, .tmp s.tmpIdx⟩
          (.place ⟨s.functionScope, .tmp s.tmpIdx⟩)] else []) new s' := by
  have htmp := Emits.newTmp .bool s
  have hi := fun t => Emits.emit (h ⟨s.functionScope, .tmp s.tmpIdx⟩) t
  obtain ⟨s₁, hg⟩ := hgenerate _
  obtain ⟨s₂, hnot⟩ := emitNot_emits negated ⟨s.functionScope, .tmp s.tmpIdx⟩ s₁
  have hend := hnot.bind (k := fun _ => pure (Operand.place ⟨s.functionScope, .tmp s.tmpIdx⟩))
    (.pure _ s₂)
  have hall := htmp.bind (k := fun dest => do
    emit (i dest)
    generate
    emitNot negated dest
    return Operand.place dest) ((hi _).bind (hg.bind hend))
  refine ⟨s₂, hall.cast (by simp) ?_⟩
  funext q
  simp [noneNew]

theorem emits_pending (ty : Ty) (s : Lowerer) :
    ∃ s', Emits (modify fun s => { s with eqToGenerate := s.eqToGenerate ++ [ty] }) s () []
      (oneNew .eqs ty) s' := by
  refine ⟨_, ⟨rfl, rfl, rfl, (List.append_nil _).symm, rfl, rfl, le_rfl, ?_, ?_, ?_⟩⟩
  · exact ⟨[], (List.append_nil _).symm, fun _ h => nomatch h⟩
  · intro q
    cases q with
    | eqs => rfl
    | _ => exact (List.append_nil _).symm
  · exact fun _ h => nomatch h

theorem callEqOf_rust {ty : Ty} {id : ℕ} (hpointer : lowerType rt ty = some .pointer)
    (hrust : rustType rt ty = some id) (negated : Bool) (left right : Operand) :
    callEqOf rt negated left right ty = (do
      let dest ← newTmp .bool
      emit (.eq dest left right id)
      pure ()
      emitNot negated dest
      return .place dest) := by
  unfold callEqOf
  rw [hpointer]
  simp only [getRuntimeEq_eq, hrust]

theorem callEqOf_generated {ty : Ty} (hpointer : lowerType rt ty = some .pointer)
    (hrust : rustType rt ty = none) (negated : Bool) (left right : Operand) :
    callEqOf rt negated left right ty = (do
      let dest ← newTmp .bool
      emit (.call (some (dest, .bool)) none (.generatedEq ty) [left, right] none)
      modify fun s => { s with eqToGenerate := s.eqToGenerate ++ [ty] }
      emitNot negated dest
      return .place dest) := by
  unfold callEqOf
  rw [hpointer]
  simp only [getRuntimeEq_eq, hrust]

theorem eqsOf_rust {ty : Ty} {id : ℕ} (h : rustType rt ty = some id) : eqsOf ty = noneNew := by
  cases ty with
  | record => cases h
  | enum => cases h
  | _ => rfl

/-- The comparison of the values of a type in registers or behind pointers. -/
theorem callEqOf_gives {ty : Ty} (h : Sized rt ty) (negated : Bool) (left right : Operand)
    (s : Lowerer) :
    ∃ out code s', Emits (callEqOf rt negated left right ty) s out code (eqsOf ty) s' ∧
      ∀ (X : Type) (p : Program) (env : Externs) (R : RustValues X env) (l : Locals)
        (v w : Value X), (isGenerated ty → EqAnswers rt R p ty) → Given rt R l left ty v →
        Given rt R l right ty w → Gives p env s code l out (.bool (negated ^^ Value.eq rt R.eq v w)) := by
  rcases h.cases with ⟨q, irTy, rfl, hq⟩ | ⟨-, hpointer⟩
  · have hlower := @lowerType_scalar rt q irTy hq
    have hne : irTy ≠ .pointer := fun heq => scalarType_ne_pointer (heq ▸ hq)
    obtain ⟨s', hemits, -⟩ := emits_tmp .bool (cmpScalars irTy negated left right) Operand.place s
      (fun v => by cases irTy <;> rfl)
    rw [callEqOf_scalar hlower hne]
    refine ⟨_, _, s', hemits, fun X p env R l v w _ hv hw => ?_⟩
    obtain ⟨n, hn, rfl⟩ := hv.scalar hlower hne
    obtain ⟨m, hm, rfl⟩ := hw.scalar hlower hne
    rw [Value.eq]
    exact .set s (exec_cmpScalars hn hm)
  · cases hrust : rustType rt ty with
    | some id =>
      obtain ⟨s', hemits⟩ := emits_negated (fun dest => .eq dest left right id) (fun _ => rfl)
        (fun s => ⟨s, .pure () s⟩) negated s
      rw [callEqOf_rust hpointer hrust]
      refine ⟨_, _, s', hemits.cast rfl (eqsOf_rust hrust).symm, fun X p env R l v w _ hv hw => ?_⟩
      obtain ⟨a, ha, hv⟩ := hv.pointer hpointer
      obtain ⟨b, hb, hw⟩ := hw.pointer hpointer
      obtain ⟨x, hx, rfl⟩ := hv.leaf_inv hrust
      obtain ⟨y, hy, rfl⟩ := hw.leaf_inv hrust
      refine .negated negated (.one ?_)
      simp only [Externs.exec, ha, hb, Value.eq, hrust, Option.any_some]
      rw [← R.eqFn_eq hx hy]
      rfl
    | none =>
      have hgen := isGenerated_of_pointer hpointer hrust
      obtain ⟨s', hemits⟩ := emits_negated
        (fun dest => .call (some (dest, .bool)) none (.generatedEq ty) [left, right] none)
        (fun _ => rfl) (emits_pending ty) negated s
      rw [callEqOf_generated hpointer hrust]
      refine ⟨_, _, s', hemits.cast rfl (if_pos hgen).symm, fun X p env R l v w hf hv hw => ?_⟩
      obtain ⟨a, ha, hv⟩ := hv.pointer hpointer
      obtain ⟨b, hb, hw⟩ := hw.pointer hpointer
      have hargs : [left, right].mapM l.regs.operand = some [.pointer a, .pointer b] := by
        simp [ha, hb]
      exact .negated negated (.call (hf hgen l a b v w hv hw) hargs rfl)

/-- The comparison of the values of a type behind two pointers. -/
theorem callEqByPtr_gives {ty : Ty} (h : Sized rt ty) {s : Lowerer} {left right : Var}
    (hright : Old s right) :
    ∃ out code s', Emits (callEqByPtr rt left right ty) s out code (eqsOf ty) s' ∧
      ∀ (X : Type) (p : Program) (env : Externs) (R : RustValues X env) (l : Locals) (a b : ℕ)
        (v w : Value X), (isGenerated ty → EqAnswers rt R p ty) →
        l.regs.operand (.place left) = some (.pointer a) →
        l.regs.operand (.place right) = some (.pointer b) →
        Holds rt R.holds l.mem ty a v → Holds rt R.holds l.mem ty b w →
        Gives p env s code l out (.bool (Value.eq rt R.eq v w)) := by
  rcases h.cases with ⟨q, irTy, rfl, hq⟩ | ⟨href, hpointer⟩
  · have hlower := @lowerType_scalar rt q irTy hq
    have hne : irTy ≠ .pointer := fun heq => scalarType_ne_pointer (heq ▸ hq)
    obtain ⟨l₁, code₁, s₁, hemits₁, hold₁, hgives₁⟩ := readTmp_gives s left irTy
    obtain ⟨r₁, code₂, s₂, hemits₂, -, hgives₂⟩ := readTmp_gives s₁ right irTy
    obtain ⟨out, code, s', hemits, hgives⟩ :=
      callEqOf_gives h false (.place l₁) (.place r₁) s₂
    have hall := hemits₁.bind (k := fun left => do
      let right ← readTmp right irTy
      callEqOf rt false left right (.primitive q)) (hemits₂.bind hemits)
    refine ⟨out, code₁ ++ (code₂ ++ code), s', ?_, ?_⟩
    · unfold callEqByPtr
      rw [isReferenceType_scalar hq, hlower]
      exact hall.cast rfl rfl
    · intro X p env R l a b v w hf ha hb hv hw
      rw [hv.scalar_inv hq, hw.scalar_inv hq]
      refine (hgives₁ p env l a ha).append hemits₁ fun l' hkept hmem hl' => ?_
      have hb' := (hkept.operand hright).trans hb
      refine (hgives₂ p env l' b hb').append hemits₂ fun l'' hkept' hmem' hr'' => ?_
      have hl'' := (hkept'.operand hold₁).trans hl'
      rw [hmem] at hr''
      have hgive := hgives X p env R l'' _ _ (fun hgen => nomatch hgen)
        (.of_scalar hlower hne hl'') (.of_scalar hlower hne hr'')
      rw [Bool.false_xor] at hgive
      exact hgive
  · obtain ⟨out, code, s', hemits, hgives⟩ :=
      callEqOf_gives h false (.place left) (.place right) s
    refine ⟨out, code, s', ?_, ?_⟩
    · unfold callEqByPtr
      rw [href]
      exact hemits
    · intro X p env R l a b v w hf ha hb hv hw
      have hgive := hgives X p env R l v w hf (.of_pointer hpointer ha hv)
        (.of_pointer hpointer hb hw)
      rw [Bool.false_xor] at hgive
      exact hgive

end Roto.Lir
