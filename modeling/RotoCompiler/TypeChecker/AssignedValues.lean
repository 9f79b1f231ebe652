import RotoCompiler.TypeChecker.Assignments
import RotoCompiler.TypeChecker.Literals

/-!
# What is assigned (typechecker/expr.rs, expr and binop)

The types of literals, paths, fields, operators and assignments. All other expressions are
checked by a parameter, what is recorded about divergence has its own module, and the functions
that are recorded for operators are left out. A path that is checked again has a value again.
-/

namespace Roto.TypeChecker
open Ast (Path Expr BinOp Literal)

abbrev Check (α : Type) := ExceptT PathError (StateT CheckState Option) α

namespace Check
variable {α : Type}

/-- What works on the variables alone. -/
def onTypes (f : UnionFind → Option (Except PathError α × UnionFind)) : Check α := fun st =>
  (f st.uf).map fun r => (r.1, { st with uf := r.2 })

def unwrap : Option α → Check α
  | none => fun _ => none
  | some a => pure a

def storeType (id : MetaId) (t : Typ) : Check Unit := fun st =>
  some (.ok (), { st with exprTypes := Function.update st.exprTypes id (some t) })

def storePath (id : MetaId) (r : ResolvedPath) : Check Unit := fun st =>
  some (.ok (), { st with pathKinds := Function.update st.pathKinds id (some r) })

def fresh (f : ℕ → Typ) : Check Typ := onTypes fun uf => some (.ok (uf.fresh f).1, (uf.fresh f).2)

end Check

section
open Check
variable (types : TypeMap) (fuel : ℕ)

def CheckError.at (id : MetaId) : CheckError → PathError
  | .mismatchedTypes a b => .mismatchedTypes a b
  | .simple description label => .error (errorSimple description label id) []
  | .expectedNumericValue ty => .expectedNumericValue id ty

def Check.ofResult (id : MetaId) (f : UnionFind → CheckResult) : Check Unit := onTypes fun uf =>
  (f uf).map fun r => (r.1.mapError (CheckError.at id), r.2)

def Check.unify (span : MetaId) (a b : Typ) : Check Unit :=
  ofResult span fun uf => checkUnify types fuel uf a b

def Check.resolveType (t : Typ) : Check Typ := onTypes fun uf =>
  (uf.resolve fuel t).map fun r => (.ok r.1, r.2)

def Check.isNumericType (t : Typ) : Check Bool := onTypes fun uf =>
  (TypeChecker.isNumericType types fuel uf t).map fun r => (.ok r.1, r.2)

/-- `TypeInfo::is_int_type`. -/
def Check.isIntType (t : Typ) : Check Bool := do
  match ← resolveType fuel t with
  | .intVar _ _ => return true
  | .name n _ => do
    let d ← unwrap (types.resolveTypeName n)
    return d.isInt
  | _ => return false

/-! ### Literals -/

/-- The type of a literal that is not an integer. -/
def literalType : Literal → Check Typ
  | .string _ => return .string
  | .char _ => return .named "char" []
  | .asn _ => return .named "Asn" []
  | .ipAddress _ => return .ipAddr
  | .bool _ => return .bool
  | .float _ (some .f32) => return .named "f32" []
  | .float _ (some .f64) => return .named "f64" []
  | .float _ none => fresh .floatVar
  | .integer _ _ | .unit => return .unit

/-- `TypeChecker::literal`. -/
def literal (ctx : Context) (l : Meta Literal) : Check Bool := do
  match l.node with
  | .integer _ ty =>
    ofResult l.id fun uf => checkInteger types fuel ty uf ctx.expectedType
    return false
  | node =>
    let t ← literalType node
    Check.unify types fuel l.id ctx.expectedType t
    return false

/-! ### Paths -/

/-- `describe_path`. -/
def ResolvedPath.describe : ResolvedPath → String × Identifier
  | .function name _ _ => ("function", name.ident)
  | .method _ name _ _ => ("method", name.ident)
  | .value v =>
    match v.fields.getLast? with
    | some f => ("field", f.1)
    | none => ("value", v.name.ident)
  | .staticMethod name _ _ => ("static method", name.ident)
  | .enumConstructor _ variant => ("enum constructor", variant.name)

/-- The kind and the name are taken the wrong way round. -/
def errorExpectedValuePath (ident : Meta Identifier) (path : ResolvedPath) : PathError :=
  let (name, kind) := path.describe
  .error ⟨s!"expected a value, but found {kind} `{name}`", ident.id,
    [⟨.error, ident.id, "expected a value"⟩]⟩ []

/-- `TypeName::instantiate`. -/
def instantiateName (name : TypeName) : Check Typ := do
  let arguments ← name.arguments.mapM fun
    | .explicitVar _ => fresh .var
    | t => pure t
  return .name name.name arguments

def Check.resolvePath (scope : ScopeRef) (p : Path) : Check ResolvedPath := fun st =>
  (resolveExpressionPath types fuel st.scopes.toScopeGraph st.payloads scope p st.uf).map
    fun r => (r.1, { st with uf := r.2 })

/-- The type of a path in an expression. -/
def pathType (lastIdent : Meta Identifier) : ResolvedPath → Check Typ
  | .value v => return v.finalType
  | .enumConstructor (.enum name _) variant =>
    if variant.fields.isEmpty then instantiateName name
    else throw (.error (errorSimple s!"enum variant {variant.name} requires arguments"
      "requires arguments" lastIdent.id) [])
  -- only an enum has constructors
  | .enumConstructor _ _ => unwrap none
  | r => throw (errorExpectedValuePath lastIdent r)

/-- The arm of `TypeChecker::expr` for `Path`. -/
def pathExpr (id : MetaId) (p : Path) (scope : ScopeRef) (ctx : Context) : Check Bool := do
  storeType id ctx.expectedType
  let lastIdent ← unwrap p.idents.getLast?
  let resolvedPath ← resolvePath types fuel scope p
  storePath p.id resolvedPath
  let ty ← pathType lastIdent resolvedPath
  storeType p.id ty
  Check.unify types fuel lastIdent.id ctx.expectedType ty
  return false

/-! ### Operators and fields -/

/-- The arm of `TypeChecker::expr` for `Access`. -/
def access (field : Meta Identifier) (operand : Context → Check Bool) (ctx : Context) :
    Check Bool := do
  let ty ← fresh .var
  let diverges ← operand (ctx.withType ty)
  let ty ← resolveType fuel ty
  let ty ← onTypes fun uf => accessField types fuel uf ty field
  Check.unify types fuel field.id ctx.expectedType ty
  return diverges

def isListName : Typ → Bool
  | .name n _ => n = ⟨ScopeRef.GLOBAL, "List"⟩
  | _ => false

section
variable (left right : Context → Check Bool)

def bothOperands (ctx : Context) : Check Bool := do
  let diverges ← left ctx
  let diverges' ← right ctx
  return diverges || diverges'

/-- The operands have one type, which has to pass a check once the left one has. -/
def operandsOf (allowed : Typ → Check Bool) (error : Typ → PathError) (ctx : Context) :
    Check Bool := do
  let diverges ← left ctx
  if ← allowed ctx.expectedType then
    let diverges' ← right ctx
    return diverges || diverges'
  else throw (error ctx.expectedType)

/-- `binop` for prefixes, strings and lists, which it looks for first. -/
def binopSpecial (op : BinOp) (span : MetaId) (ctx : Context) : Check (Option Bool) := do
  match op with
  | .div => do
    let var ← fresh .var
    let diverges ← left (ctx.withType var)
    if (← resolveType fuel var) = .ipAddr then
      let diverges' ← right (ctx.withType .u8)
      Check.unify types fuel span ctx.expectedType .ipPrefix
      return some (diverges || diverges')
    else return none
  | .add => do
    let var ← fresh .var
    let diverges ← left (ctx.withType var)
    let resolved ← resolveType fuel var
    if resolved = .string then
      let diverges' ← right (ctx.withType var)
      Check.unify types fuel span ctx.expectedType .string
      return some (diverges || diverges')
    else if isListName resolved then
      let diverges' ← right (ctx.withType var)
      Check.unify types fuel span ctx.expectedType var
      return some (diverges || diverges')
    else return none
  | _ => return none

/-- The rest of `binop`. -/
def binopOperands (op : BinOp) (span leftId : MetaId) (ctx : Context) : Check Bool := do
  let numeric := operandsOf left right (Check.isNumericType types fuel)
    (.expectedNumericValue leftId)
  match op with
  | .and | .or => do
    Check.unify types fuel span ctx.expectedType .bool
    bothOperands left right (ctx.withType .bool)
  | .lt | .le | .gt | .ge => do
    Check.unify types fuel span ctx.expectedType .bool
    let ty ← fresh .var
    numeric (ctx.withType ty)
  | .eq | .ne => do
    Check.unify types fuel span ctx.expectedType .bool
    let ty ← fresh .var
    bothOperands left right (ctx.withType ty)
  | .add | .sub | .mul | .div => do
    let operandTy ← fresh .var
    let diverges ← numeric (ctx.withType operandTy)
    Check.unify types fuel span ctx.expectedType operandTy
    return diverges
  | .mod => do
    let operandTy ← fresh .var
    let diverges ← operandsOf left right (Check.isIntType types fuel) (.expectedIntValue leftId)
      (ctx.withType operandTy)
    Check.unify types fuel span ctx.expectedType operandTy
    return diverges

/-- `TypeChecker::binop`. -/
def binop (op : BinOp) (span leftId : MetaId) (ctx : Context) : Check Bool := do
  match ← binopSpecial types fuel left right op span ctx with
  | some diverges => return diverges
  | none => binopOperands types fuel left right op span leftId ctx

end

/-! ### Expressions -/

/-- `TypeChecker::expr`. -/
def expr (others : ScopeRef → Context → Expr → Check Bool) :
    Expr → ScopeRef → Context → Check Bool
  | .literal id l, _, ctx => do
    storeType id ctx.expectedType
    literal types fuel ctx l
  | .path id p, scope, ctx => pathExpr types fuel id p scope ctx
  | .access id e field, scope, ctx => do
    storeType id ctx.expectedType
    access types fuel field (expr others e scope) ctx
  | .not id e, scope, ctx => do
    storeType id ctx.expectedType
    Check.unify types fuel id ctx.expectedType .bool
    expr others e scope (ctx.withType .bool)
  | .binOp id l op r, scope, ctx => do
    storeType id ctx.expectedType
    binop types fuel (expr others l scope) (expr others r scope) op id l.id ctx
  | .assign id p e, scope, ctx =>
    checkAssignment types fuel (fun scope ctx _ => expr others e scope ctx) scope ctx
      (.assign id p e)
  | .compoundAssign id binopId pathExprId p op e, scope, ctx =>
    checkAssignment types fuel (fun scope ctx _ =>
        binop types fuel (pathExpr types fuel pathExprId p scope) (expr others e scope) op.binOp
          binopId pathExprId ctx) scope ctx
      (.compoundAssign id binopId pathExprId p op e)
  | e, scope, ctx => others scope ctx e

/-- The check of what is assigned. -/
def AssignExpr.check (others : ScopeRef → Context → Expr → Check Bool) (a : AssignExpr)
    (scope : ScopeRef) (ctx : Context) (_ : Expr) : Check Bool :=
  match a with
  | .assign _ _ e => expr types fuel others e scope ctx
  | .compoundAssign _ binopId pathExprId p op e =>
    binop types fuel (pathExpr types fuel pathExprId p scope) (expr types fuel others e scope)
      op.binOp binopId pathExprId ctx

theorem expr_assign (others : ScopeRef → Context → Expr → Check Bool) (a : AssignExpr)
    (scope : ScopeRef) (ctx : Context) : expr types fuel others a.toExpr scope ctx =
      checkAssignment types fuel (a.check types fuel others) scope ctx a := by
  cases a <;> rfl

end

/-! ### What an accepted check keeps -/

/-- A check that accepts keeps `I`. -/
def Check.Preserves {α : Type} (I : CheckState → Prop) (m : Check α) : Prop :=
  ∀ st a st', I st → m.run.run st = some (.ok a, st') → I st'

/-- The path resolves as it did in `g`, and a value of it is recorded. -/
structure TargetKept (g : ScopeGraph) (scope : ScopeRef) (p : Path) (st : CheckState) : Prop where
  resolves : ∀ first rest, p.idents = first :: rest →
    resolveModulePartOfPath st.scopes.toScopeGraph scope first rest =
      resolveModulePartOfPath g scope first rest
  recorded : ∃ v, st.pathKinds p.id = some (.value v) ∧ ValuePath g scope p v

section
open Check
variable {types : TypeMap} {fuel : ℕ} {g : ScopeGraph} {scope : ScopeRef} {p : Path} {α β : Type}

theorem preserves_pure {I : CheckState → Prop} (a : α) : Preserves I (pure a) := by
  intro st b st' hst h
  obtain ⟨-, rfl⟩ := Prod.mk.inj (Option.some.inj h)
  exact hst

theorem preserves_throw {I : CheckState → Prop} (e : PathError) : Preserves I (throw e : Check α) := by
  intro st b st' _ h
  cases h

theorem Check.Preserves.bind {I : CheckState → Prop} {m : Check α} {f : α → Check β} (hm : Preserves I m)
    (hf : ∀ a, Preserves I (f a)) : Preserves I (m >>= f) := by
  intro st b st' hst h
  rw [ExceptT.run_bind, StateT.run_bind] at h
  obtain ⟨⟨r, st₁⟩, hr, hrest⟩ := Option.bind_eq_some_iff.mp h
  cases r with
  | error e => cases hrest
  | ok a =>
    have hst₁ := hm st a st₁ hst hr
    exact hf a st₁ b st' hst₁ hrest

theorem preserves_ite {I : CheckState → Prop} {c : Prop} [Decidable c] {m n : Check α}
    (hm : Preserves I m) (hn : Preserves I n) : Preserves I (if c then m else n) := by
  split
  · exact hm
  · exact hn

theorem preserves_unwrap {I : CheckState → Prop} (a : Option α) : Preserves I (unwrap a) := by
  cases a with
  | none =>
    intro st b st' _ h
    cases h
  | some a => exact preserves_pure a

theorem preserves_onTypes (f : UnionFind → Option (Except PathError α × UnionFind)) :
    Preserves (TargetKept g scope p) (onTypes f) := by
  intro st a st' hst h
  obtain ⟨r, -, hr⟩ := Option.map_eq_some_iff.mp h
  obtain ⟨-, rfl⟩ := Prod.mk.inj hr
  exact ⟨hst.resolves, hst.recorded⟩

theorem preserves_storeType (id : MetaId) (t : Typ) :
    Preserves (TargetKept g scope p) (storeType id t) := by
  intro st a st' hst h
  obtain ⟨-, rfl⟩ := Prod.mk.inj (Option.some.inj h)
  exact ⟨hst.resolves, hst.recorded⟩

theorem preserves_fresh (f : ℕ → Typ) : Preserves (TargetKept g scope p) (fresh f) :=
  preserves_onTypes _

theorem preserves_ofResult (id : MetaId) (f : UnionFind → CheckResult) :
    Preserves (TargetKept g scope p) (ofResult id f) := by
  unfold ofResult
  exact preserves_onTypes _

theorem preserves_unify (span : MetaId) (a b : Typ) :
    Preserves (TargetKept g scope p) (Check.unify types fuel span a b) :=
  preserves_ofResult span _

theorem preserves_resolveType (t : Typ) : Preserves (TargetKept g scope p) (resolveType fuel t) :=
  preserves_onTypes _

theorem preserves_isNumericType (t : Typ) :
    Preserves (TargetKept g scope p) (Check.isNumericType types fuel t) :=
  preserves_onTypes _

theorem preserves_isIntType (t : Typ) : Preserves (TargetKept g scope p) (isIntType types fuel t) := by
  refine (preserves_resolveType t).bind fun t => ?_
  cases t with
  | name n arguments => exact (preserves_unwrap _).bind fun d => preserves_pure _
  | _ => exact preserves_pure _

theorem preserves_mapM {f : α → Check β} {I : CheckState → Prop} (hf : ∀ a, Preserves I (f a))
    (as : List α) : Preserves I (as.mapM f) := by
  induction as with
  | nil => exact preserves_pure []
  | cons a as ih =>
    rw [List.mapM_cons]
    exact (hf a).bind fun b => ih.bind fun bs => preserves_pure (b :: bs)

/-! ### Literals and operators -/

theorem preserves_literal (ctx : Context) (l : Meta Literal) :
    Preserves (TargetKept g scope p) (literal types fuel ctx l) := by
  have htype : ∀ node, Preserves (TargetKept g scope p) (literalType node) := by
    intro node
    cases node with
    | float bits ty =>
      cases ty with
      | none => exact preserves_fresh .floatVar
      | some ty => cases ty <;> exact preserves_pure _
    | _ => exact preserves_pure _
  unfold literal
  split
  · exact (preserves_ofResult _ _).bind fun _ => preserves_pure false
  · exact (htype _).bind fun t => (preserves_unify _ _ _).bind fun _ => preserves_pure false

theorem preserves_access {operand : Context → Check Bool}
    (h : ∀ ctx, Preserves (TargetKept g scope p) (operand ctx)) (field : Meta Identifier)
    (ctx : Context) : Preserves (TargetKept g scope p) (access types fuel field operand ctx) :=
  (preserves_fresh _).bind fun _ => (h _).bind fun b => (preserves_resolveType _).bind fun _ =>
    (preserves_onTypes _).bind fun _ => (preserves_unify _ _ _).bind fun _ => preserves_pure b

section
variable {left right : Context → Check Bool}
  (hleft : ∀ ctx, Preserves (TargetKept g scope p) (left ctx))
  (hright : ∀ ctx, Preserves (TargetKept g scope p) (right ctx))
include hleft hright

theorem preserves_bothOperands (ctx : Context) :
    Preserves (TargetKept g scope p) (bothOperands left right ctx) :=
  (hleft ctx).bind fun b => (hright ctx).bind fun b' => preserves_pure (b || b')

theorem preserves_operandsOf {allowed : Typ → Check Bool}
    (hallowed : ∀ t, Preserves (TargetKept g scope p) (allowed t)) (error : Typ → PathError)
    (ctx : Context) :
    Preserves (TargetKept g scope p) (operandsOf left right allowed error ctx) :=
  (hleft ctx).bind fun b => (hallowed _).bind fun _ =>
    preserves_ite ((hright ctx).bind fun b' => preserves_pure (b || b')) (preserves_throw _)

theorem preserves_binopSpecial (op : BinOp) (span : MetaId) (ctx : Context) :
    Preserves (TargetKept g scope p) (binopSpecial types fuel left right op span ctx) := by
  have hspecial : ∀ b t t', Preserves (TargetKept g scope p) (do
      let b' ← right (ctx.withType t)
      Check.unify types fuel span ctx.expectedType t'
      return some (b || b')) := fun b t t' =>
    (hright _).bind fun b' => (preserves_unify _ _ _).bind fun _ => preserves_pure (some (b || b'))
  unfold binopSpecial
  cases op with
  | div =>
    exact (preserves_fresh _).bind fun _ => (hleft _).bind fun b =>
      (preserves_resolveType _).bind fun _ => preserves_ite (hspecial b _ _) (preserves_pure none)
  | add =>
    exact (preserves_fresh _).bind fun _ => (hleft _).bind fun b =>
      (preserves_resolveType _).bind fun _ => preserves_ite (hspecial b _ _)
        (preserves_ite (hspecial b _ _) (preserves_pure none))
  | _ => exact preserves_pure none

theorem preserves_binop (op : BinOp) (span leftId : MetaId) (ctx : Context) :
    Preserves (TargetKept g scope p) (binop types fuel left right op span leftId ctx) := by
  refine (preserves_binopSpecial hleft hright op span ctx).bind fun special => ?_
  cases special with
  | some b => exact preserves_pure b
  | none =>
    have hnumeric := preserves_operandsOf hleft hright
      (@preserves_isNumericType types fuel g scope p) (.expectedNumericValue leftId)
    have hint := preserves_operandsOf hleft hright
      (@preserves_isIntType types fuel g scope p) (.expectedIntValue leftId)
    have hboth := preserves_bothOperands hleft hright
    cases op with
    | and | or => exact (preserves_unify _ _ _).bind fun _ => hboth _
    | lt | le | gt | ge =>
      exact (preserves_unify _ _ _).bind fun _ => (preserves_fresh _).bind fun _ => hnumeric _
    | eq | ne =>
      exact (preserves_unify _ _ _).bind fun _ => (preserves_fresh _).bind fun _ => hboth _
    | add | sub | mul | div =>
      exact (preserves_fresh _).bind fun _ => (hnumeric _).bind fun b =>
        (preserves_unify _ _ _).bind fun _ => preserves_pure b
    | mod =>
      exact (preserves_fresh _).bind fun _ => (hint _).bind fun b =>
        (preserves_unify _ _ _).bind fun _ => preserves_pure b

end

/-! ### Paths -/

/-- A path with a value does not resolve to a constructor. -/
theorem ValuePath.resolved {g : ScopeGraph} {payloads : Payloads} {uf uf' : UnionFind}
    {v : PathValue} {r : ResolvedPath} (h : ValuePath g scope p v)
    (hr : resolveExpressionPath types fuel g payloads scope p uf = some (.ok r, uf')) :
    (∃ w, r = .value w) ∨ ∃ w name definition signature,
      r = .method w name definition signature := by
  obtain ⟨first, rest, ident, d, idents, hidents, hmodule, -, hkind, -⟩ := h.found
  unfold resolveExpressionPath at hr
  simp only [hidents, hmodule, hkind] at hr
  cases hroot : payloads.rootTy d.name with
  | none => simp [hroot] at hr
  | some rootTy =>
    simp only [hroot] at hr
    exact resolveFields_ok hr

/-- A value that is recorded for a path is one of the target, if the path has its id. -/
theorem TargetKept.record {st st' : CheckState} (h : TargetKept g scope p st) {q : Path}
    (hq : q.id = p.id → q = p) {v : PathValue} (hv : ValuePath st.scopes.toScopeGraph scope q v)
    (hscopes : st'.scopes = st.scopes)
    (hkinds : st'.pathKinds = Function.update st.pathKinds q.id (some (.value v))) :
    TargetKept g scope p st' := by
  refine ⟨by rw [hscopes]; exact h.resolves, ?_⟩
  rw [hkinds]
  by_cases hid : q.id = p.id
  · obtain rfl := hq hid
    refine ⟨v, Function.update_self .., ?_⟩
    obtain ⟨first, rest, ident, d, idents, hidents, hmodule, hrest⟩ := hv.found
    rw [h.resolves first rest hidents] at hmodule
    exact ⟨⟨first, rest, ident, d, idents, hidents, hmodule, hrest⟩⟩
  · rw [Function.update_of_ne (Ne.symm hid)]
    exact h.recorded

/-- What is resolved for a path with another id is of no concern. -/
theorem TargetKept.other {st st' : CheckState} (h : TargetKept g scope p st) {id : MetaId}
    (hid : id ≠ p.id) {r : Option ResolvedPath} (hscopes : st'.scopes = st.scopes)
    (hkinds : st'.pathKinds = Function.update st.pathKinds id r) : TargetKept g scope p st' := by
  refine ⟨by rw [hscopes]; exact h.resolves, ?_⟩
  rw [hkinds, Function.update_of_ne (Ne.symm hid)]
  exact h.recorded

theorem preserves_pathType (lastIdent : Meta Identifier) (r : ResolvedPath) :
    Preserves (TargetKept g scope p) (pathType lastIdent r) := by
  have hinstantiate : ∀ name, Preserves (TargetKept g scope p) (instantiateName name) := by
    intro name
    refine (preserves_mapM (fun t => ?_) name.arguments).bind fun _ => preserves_pure _
    cases t with
    | explicitVar s => exact preserves_fresh .var
    | _ => exact preserves_pure _
  cases r with
  | value v => exact preserves_pure v.finalType
  | enumConstructor ty variant =>
    cases ty with
    | enum name variants => exact preserves_ite (hinstantiate name) (preserves_throw _)
    | _ => exact preserves_unwrap none
  | _ => exact preserves_throw _

/-- A path that is checked has a value again, where it is the target. -/
theorem preserves_pathExpr {q : Path} (hq : q.id = p.id → q = p) (id : MetaId) (ctx : Context) :
    Preserves (TargetKept g scope p) (pathExpr types fuel id q scope ctx) := by
  refine (preserves_storeType _ _).bind fun _ => (preserves_unwrap _).bind fun lastIdent => ?_
  have hrest : ∀ r, Preserves (TargetKept g scope p) (do
      let ty ← pathType lastIdent r
      storeType q.id ty
      Check.unify types fuel lastIdent.id ctx.expectedType ty
      return false) := fun r =>
    (preserves_pathType _ r).bind fun _ => (preserves_storeType _ _).bind fun _ =>
      (preserves_unify _ _ _).bind fun _ => preserves_pure false
  intro st a st' hst h
  rw [ExceptT.run_bind, StateT.run_bind] at h
  obtain ⟨⟨result, st₁⟩, hresolve, h⟩ := Option.bind_eq_some_iff.mp h
  obtain ⟨⟨answer, uf⟩, hpath, hanswer⟩ := Option.map_eq_some_iff.mp hresolve
  obtain ⟨rfl, rfl⟩ := Prod.mk.inj hanswer
  cases answer with
  | error e => cases h
  | ok r =>
    -- what is left of the run, from the state with the path
    let st₂ : CheckState := { st with
      uf, pathKinds := Function.update st.pathKinds q.id (some r) }
    have hrun := hrest r st₂ a st'
    by_cases hid : q.id = p.id
    · obtain rfl := hq hid
      obtain ⟨v, -, hv⟩ := hst.recorded
      have hv' : ValuePath st.scopes.toScopeGraph scope q v := by
        obtain ⟨first, rest, ident, d, idents, hidents, hmodule, hfound⟩ := hv.found
        rw [← hst.resolves first rest hidents] at hmodule
        exact ⟨⟨first, rest, ident, d, idents, hidents, hmodule, hfound⟩⟩
      rcases hv'.resolved hpath with ⟨w, rfl⟩ | ⟨w, name, definition, signature, rfl⟩
      · exact hrun (hst.record (fun _ => rfl) (resolveExpressionPath_value hpath) rfl rfl) h
      · cases h
    · exact hrun (hst.other hid rfl rfl) h

/-- An assignment keeps what the check of its value keeps. -/
theorem preserves_checkAssignment {check : ScopeRef → Context → Expr → CheckState → CheckAnswer Bool}
    (a : AssignExpr) (ha : a.path.id = p.id → a.path = p) (ctx : Context)
    (hcheck : ∀ ctx, Preserves (TargetKept g scope p) (check scope ctx a.value)) :
    Preserves (TargetKept g scope p) (checkAssignment types fuel check scope ctx a) := by
  intro st b st' hst h
  have hok : checkAssignment types fuel check scope ctx a st = some (.ok b, st') := h
  unfold checkAssignment at hok
  simp only at hok
  split at hok
  · cases hok
  · cases hok
  next v st₁ htarget =>
    obtain ⟨hscopes, hkinds, hvalue⟩ := checkTarget_ok htarget
    have hst₁ : TargetKept g scope p st₁ := hst.record ha hvalue hscopes hkinds
    split at hok
    next b' st₂ hrun =>
      obtain ⟨-, rfl⟩ := Prod.mk.inj (Option.some.inj hok)
      have hst₂ := hcheck _ st₁ b' st₂ hst₁ hrun
      exact ⟨hst₂.resolves, hst₂.recorded⟩
    next => exact hcheck _ st₁ b st' hst₁ hok

/-! ### Expressions -/

/-- The paths that are checked with an expression, in the scope of the expression itself. -/
def pathsOf : Expr → List Path
  | .path _ p => [p]
  | .access _ e _ => pathsOf e
  | .not _ e => pathsOf e
  | .binOp _ l _ r => pathsOf l ++ pathsOf r
  | .assign _ p e => p :: pathsOf e
  | .compoundAssign _ _ _ p _ e => p :: pathsOf e
  | _ => []

variable {others : ScopeRef → Context → Expr → Check Bool}
  (hothers : ∀ ctx e, Preserves (TargetKept g scope p) (others scope ctx e))
include hothers

/-- Paths with the id of the target are the target, so that a check of an expression leaves a
value for it. -/
theorem preserves_expr : ∀ (e : Expr) (ctx : Context),
    (∀ q ∈ pathsOf e, q.id = p.id → q = p) →
      Preserves (TargetKept g scope p) (expr types fuel others e scope ctx)
  | .literal id l, ctx, _ =>
    (preserves_storeType id _).bind fun _ => preserves_literal ctx l
  | .path id q, ctx, hpaths => preserves_pathExpr (hpaths q (List.mem_singleton_self q)) id ctx
  | .access id e field, ctx, hpaths =>
    (preserves_storeType id _).bind fun _ =>
      preserves_access (fun ctx => preserves_expr e ctx hpaths) field ctx
  | .not id e, ctx, hpaths =>
    (preserves_storeType id _).bind fun _ => (preserves_unify _ _ _).bind fun _ =>
      preserves_expr e _ hpaths
  | .binOp id l op r, ctx, hpaths => by
    obtain ⟨hl, hr⟩ := List.forall_mem_append.mp hpaths
    exact (preserves_storeType id _).bind fun _ =>
      preserves_binop (fun ctx => preserves_expr l ctx hl) (fun ctx => preserves_expr r ctx hr) op
        id l.id ctx
  | .assign id q e, ctx, hpaths => by
    obtain ⟨hq, he⟩ := List.forall_mem_cons.mp hpaths
    exact preserves_checkAssignment (.assign id q e) hq ctx fun ctx => preserves_expr e ctx he
  | .compoundAssign id binopId pathExprId q op e, ctx, hpaths => by
    obtain ⟨hq, he⟩ := List.forall_mem_cons.mp hpaths
    exact preserves_checkAssignment (.compoundAssign id binopId pathExprId q op e) hq ctx fun ctx =>
      preserves_binop (fun ctx => preserves_pathExpr hq pathExprId ctx)
        (fun ctx => preserves_expr e ctx he) op.binOp binopId pathExprId ctx
  | .return .., ctx, _ => hothers ctx _
  | .block .., ctx, _ => hothers ctx _
  | .match .., ctx, _ => hothers ctx _
  | .functionCall .., ctx, _ => hothers ctx _
  | .record .., ctx, _ => hothers ctx _
  | .typedRecord .., ctx, _ => hothers ctx _
  | .list .., ctx, _ => hothers ctx _
  | .negate .., ctx, _ => hothers ctx _
  | .ifElse .., ctx, _ => hothers ctx _
  | .while .., ctx, _ => hothers ctx _
  | .for .., ctx, _ => hothers ctx _
  | .questionMark .., ctx, _ => hothers ctx _
  | .fString .., ctx, _ => hothers ctx _

theorem preserves_check {a : AssignExpr}
    (hpaths : ∀ q ∈ pathsOf a.value, q.id = p.id → q = p) (ctx : Context) (e : Expr) :
    Preserves (TargetKept g scope p) (a.check types fuel others scope ctx e) := by
  cases a with
  | assign id q value => exact preserves_expr hothers value ctx hpaths
  | compoundAssign id binopId pathExprId q op value =>
    obtain ⟨hq, hvalue⟩ := List.forall_mem_cons.mp hpaths
    exact preserves_binop (fun ctx => preserves_pathExpr hq pathExprId ctx)
      (fun ctx => preserves_expr hothers value ctx hvalue) op.binOp binopId pathExprId ctx

end
end Roto.TypeChecker
