import RotoCompiler.TypeChecker.Info
import RotoCompiler.TypeChecker.LocalScopes
import RotoCompiler.TypeChecker.Unify

/-!
# Paths and assignments in the type checker (typechecker/expr.rs)

A path in an expression is a variable, constant or context value with fields, or a function,
method or enum constructor. An assignment takes any value for its target. What a path adds to
the references of an item is part of the order of compilation and left out here.
-/

namespace Roto.TypeChecker
open Ast (Path Expr CompoundAssignOp)

/-- What is declared, where lookup of names does not need it. -/
structure Payloads where
  rootTy : ResolvedName → Option Typ
  function : ResolvedName → Option (FunctionDefinition × Signature)
  variant : ResolvedName → Option (TypeDefinition × EnumVariant)

inductive PathError where
  | error (e : TypeError) (notes : List String)
  | noFieldOnType (ty : Typ) (ident : Meta Identifier)
  | noFieldOrMethodOnType (ty : Typ) (ident : Meta Identifier)
  | mismatchedTypes (a b : Typ)
  | expectedNumericValue (expr : MetaId) (ty : Typ)
  | expectedIntValue (expr : MetaId) (ty : Typ)

def errorExpectedValue (ident : Meta Identifier) (declaration : Declaration) : TypeError :=
  let kind := declaration.kind.describe
  ⟨s!"expected a value, but found {kind} `{declaration.name.ident}`", ident.id,
    [⟨.error, ident.id, "expected a value"⟩,
      ⟨.info, declaration.id, s!"{kind} `{declaration.name.ident}` defined here"⟩]⟩

def errorCannotAssignToThisExpression (path : Path) : PathError :=
  .error (errorSimple "cannot assign to this expression" "cannot assign to this" path.id)
    ["you can only assign to a variable or fields of a variable"]

/-! ### Paths -/

/-- The loop of `Signature::instantiate` over the type parameters. -/
def instantiateTypes : List Typ → UnionFind → List Typ × List (Typ × Typ) × UnionFind
  | [], uf => ([], [], uf)
  | .explicitVar s :: types, uf =>
    let (newTy, uf) := uf.fresh .var
    let (newTypes, subs, uf) := instantiateTypes types uf
    (newTy :: newTypes, (.explicitVar s, newTy) :: subs, uf)
  | ty :: types, uf =>
    let (newTypes, subs, uf) := instantiateTypes types uf
    (ty :: newTypes, subs, uf)

def Signature.instantiate (s : Signature) (uf : UnionFind) : Signature × UnionFind :=
  let (newTypes, subs, uf) := instantiateTypes s.types uf
  (⟨newTypes, s.parameterTypes.map fun t => t.substituteMany subs,
    s.returnType.substituteMany subs⟩, uf)

section
variable (types : TypeMap) (fuel : ℕ) (g : ScopeGraph) (payloads : Payloads)

/-- `TypeChecker::get_method`, with `none` where it does not return. -/
def getMethod (uf : UnionFind) (ty : Typ) (method : Meta Identifier) :
    Option (Option Function × UnionFind) :=
  match uf.resolve fuel ty with
  | none => none
  | some (.name n _, uf) =>
    match (g.declarations n).bind Declaration.scope with
    | none => none
    | some typeScope =>
      match g.resolveName typeScope method.node false with
      | none => some (none, uf)
      | some dec =>
        match dec.kind, payloads.function dec.name with
        | .method, some (definition, signature) =>
          let (signature, uf) := signature.instantiate uf
          some (some ⟨signature, dec.name, definition⟩, uf)
        | _, _ => some (none, uf)
  | some (_, uf) => some (none, uf)

/-- The fields of a resolved type. -/
def fieldsOfType : Typ → Option Fields
  | .record fields => some fields
  | .recordVar _ fields => some fields
  | .name n arguments =>
    match (types.resolveTypeName n).bind fun d => d.recordFields arguments with
    | none => none
    | some fields => some (fields.getD [])
  | _ => some []

/-- `TypeChecker::access_field`. -/
def accessField (uf : UnionFind) (ty : Typ) (field : Meta Identifier) :
    Option (Except PathError Typ × UnionFind) :=
  match uf.resolve fuel ty with
  | none => none
  | some (ty, uf) =>
    match fieldsOfType types ty with
    | none => none
    | some fields =>
      match fields.find? fun f => f.1.node = field.node with
      | some (_, t) => some (.ok t, uf)
      | none => some (.error (.noFieldOnType ty field), uf)

/-- The loop over the identifiers after a value. -/
def resolveFields (name : ResolvedName) (kind : ValueKind) (rootTy : Typ) :
    UnionFind → Typ → List (Identifier × Typ) → List (Meta Identifier) →
      Option (Except PathError ResolvedPath × UnionFind)
  | uf, _, fields, [] => some (.ok (.value ⟨name, kind, rootTy, fields⟩), uf)
  | uf, ty, fields, field :: idents =>
    match getMethod fuel g payloads uf ty field with
    | none => none
    | some (some function, uf) =>
      match idents with
      | next :: _ => some (.error (.noFieldOnType ty next), uf)
      | [] =>
        some (.ok (.method ⟨name, kind, rootTy, fields⟩ function.name function.definition
          function.signature), uf)
    | some (none, uf) =>
      match accessField types fuel uf ty field with
      | none => none
      | some (.error _, uf) => some (.error (.noFieldOrMethodOnType ty field), uf)
      | some (.ok newTy, uf) =>
        resolveFields name kind rootTy uf newTy (fields ++ [(field.node, newTy)]) idents

/-- `TypeChecker::resolve_expression_path`. -/
def resolveExpressionPath (scope : ScopeRef) (path : Path) (uf : UnionFind) :
    Option (Except PathError ResolvedPath × UnionFind) :=
  match path.idents with
  | [] => none
  | first :: rest =>
    match resolveModulePartOfPath g scope first rest with
    | .error e => some (.error (.error e []), uf)
    | .ok (ident, dec, idents) =>
      match dec.kind with
      | .module => some (.error (.error (errorExpectedValue ident dec) []), uf)
      | .type => some (.error (.error (errorExpectedValue ident dec) []), uf)
      | .typeParam => some (.error (.error (errorExpectedValue ident dec) []), uf)
      | .function => resolveFunction dec.name idents uf
      | .method => resolveFunction dec.name idents uf
      | .value kind =>
        match payloads.rootTy dec.name with
        | none => none
        | some rootTy =>
          resolveFields types fuel g payloads dec.name kind rootTy uf rootTy [] idents
      | .enum =>
        match payloads.variant dec.name, idents with
        | some (ty, variant), [] => some (.ok (.enumConstructor ty variant), uf)
        -- a variant with a field is a `todo!`
        | _, _ => none
where
  resolveFunction (name : ResolvedName) (idents : List (Meta Identifier)) (uf : UnionFind) :
      Option (Except PathError ResolvedPath × UnionFind) :=
    match payloads.function name with
    | none => none
    | some (definition, signature) =>
      match idents with
      | field :: _ =>
        some (.error (.noFieldOnType (.function signature.parameterTypes signature.returnType)
          field), uf)
      | [] =>
        let (signature, uf) := signature.instantiate uf
        some (.ok (.function name definition signature), uf)

end

/-! ### Assignments -/

structure Context where
  expectedType : Typ
  functionReturnType : Option Typ
  item : ResolvedName

def Context.withType (ctx : Context) (ty : Typ) : Context := { ctx with expectedType := ty }

/-- What the check of an expression reads and writes. -/
structure CheckState where
  uf : UnionFind
  scopes : LocalScopes
  payloads : Payloads
  pathKinds : MetaId → Option ResolvedPath
  exprTypes : MetaId → Option Typ

abbrev CheckAnswer (α : Type) := Option (Except PathError α × CheckState)

/-- The expressions `p = e` and `p op= e`. -/
inductive AssignExpr where
  | assign (id : MetaId) (p : Path) (e : Expr)
  | compoundAssign (id binopId pathExprId : MetaId) (p : Path) (op : CompoundAssignOp) (e : Expr)

namespace AssignExpr

def toExpr : AssignExpr → Expr
  | assign id p e => .assign id p e
  | compoundAssign id binopId pathExprId p op e => .compoundAssign id binopId pathExprId p op e

def id : AssignExpr → MetaId
  | assign id _ _ => id
  | compoundAssign id _ _ _ _ _ => id

def path : AssignExpr → Path
  | assign _ p _ => p
  | compoundAssign _ _ _ p _ _ => p

/-- What is assigned: the operation, for a compound assignment. -/
def value : AssignExpr → Expr
  | assign _ _ e => e
  | compoundAssign _ binopId pathExprId p op e =>
    .binOp binopId (.path pathExprId p) op.binOp e

end AssignExpr

section
variable (types : TypeMap) (fuel : ℕ)

/-- What both kinds of assignments do before they check the value. -/
def checkTarget (scope : ScopeRef) (ctx : Context) (p : Path) (st : CheckState) :
    CheckAnswer PathValue :=
  match unify types fuel st.uf ctx.expectedType .unit with
  | none => none
  | some (.error (a, b), uf) => some (.error (.mismatchedTypes a b), { st with uf })
  | some (.ok _, uf) =>
    match resolveExpressionPath types fuel st.scopes.toScopeGraph st.payloads scope p uf with
    | none => none
    | some (.error e, uf) => some (.error e, { st with uf })
    | some (.ok resolvedPath, uf) =>
      let st := { st with
        uf, pathKinds := Function.update st.pathKinds p.id (some resolvedPath) }
      match resolvedPath with
      | .value v => some (.ok v, st)
      | _ => some (.error (errorCannotAssignToThisExpression p), st)

/-- The arms of `TypeChecker::expr` for `Assign` and `CompoundAssign`, with the check of what
is assigned, by `expr` or by `binop`. -/
def checkAssignment (checkValue : ScopeRef → Context → Expr → CheckState → CheckAnswer Bool)
    (scope : ScopeRef) (ctx : Context) (a : AssignExpr) (st : CheckState) : CheckAnswer Bool :=
  let st := { st with
    exprTypes := Function.update st.exprTypes a.id (some ctx.expectedType) }
  match checkTarget types fuel scope ctx a.path st with
  | none => none
  | some (.error e, st) => some (.error e, st)
  | some (.ok v, st) =>
    match a, checkValue scope (ctx.withType v.finalType) a.value st with
    | .compoundAssign _ binopId _ _ _ _, some (.ok diverges, st) =>
      some (.ok diverges, { st with
        exprTypes := Function.update st.exprTypes binopId (some v.finalType) })
    | _, answer => answer

end

/-! ### What a path with a value is -/

variable {types : TypeMap} {fuel : ℕ} {g : ScopeGraph} {payloads : Payloads}

theorem resolveFields_value {name : ResolvedName} {kind : ValueKind} {rootTy ty : Typ}
    {uf uf' : UnionFind} {fields : List (Identifier × Typ)} {idents : List (Meta Identifier)}
    {v : PathValue}
    (h : resolveFields types fuel g payloads name kind rootTy uf ty fields idents =
      some (.ok (.value v), uf')) :
    v.name = name ∧ v.kind = kind ∧
      v.fields.map Prod.fst = fields.map Prod.fst ++ idents.map Meta.node := by
  induction idents generalizing uf ty fields with
  | nil =>
    unfold resolveFields at h
    obtain ⟨hv, -⟩ := Prod.mk.inj (Option.some.inj h)
    obtain rfl := ResolvedPath.value.inj (Except.ok.inj hv)
    simp
  | cons field idents ih =>
    unfold resolveFields at h
    cases hmethod : getMethod fuel g payloads uf ty field with
    | none => simp [hmethod] at h
    | some answer =>
      obtain ⟨found, uf₁⟩ := answer
      cases found with
      | some function => cases idents <;> simp [hmethod] at h
      | none =>
        simp only [hmethod] at h
        cases hfield : accessField types fuel uf₁ ty field with
        | none => simp [hfield] at h
        | some answer =>
          obtain ⟨result, uf₂⟩ := answer
          cases result with
          | error e => simp [hfield] at h
          | ok newTy =>
            simp only [hfield] at h
            obtain ⟨hname, hkind, hfields⟩ := ih h
            refine ⟨hname, hkind, ?_⟩
            rw [hfields]
            simp

/-- After a value there is a value or a method. -/
theorem resolveFields_ok {name : ResolvedName} {kind : ValueKind} {rootTy ty : Typ}
    {uf uf' : UnionFind} {fields : List (Identifier × Typ)} {idents : List (Meta Identifier)}
    {r : ResolvedPath}
    (h : resolveFields types fuel g payloads name kind rootTy uf ty fields idents =
      some (.ok r, uf')) :
    (∃ v, r = .value v) ∨ ∃ v name definition signature,
      r = .method v name definition signature := by
  induction idents generalizing uf ty fields with
  | nil =>
    unfold resolveFields at h
    obtain ⟨hr, -⟩ := Prod.mk.inj (Option.some.inj h)
    exact .inl ⟨_, (Except.ok.inj hr).symm⟩
  | cons field idents ih =>
    unfold resolveFields at h
    cases hmethod : getMethod fuel g payloads uf ty field with
    | none => simp [hmethod] at h
    | some answer =>
      obtain ⟨found, uf₁⟩ := answer
      cases found with
      | some function =>
        cases idents with
        | nil =>
          simp only [hmethod] at h
          obtain ⟨hr, -⟩ := Prod.mk.inj (Option.some.inj h)
          exact .inr ⟨_, _, _, _, (Except.ok.inj hr).symm⟩
        | cons next rest => simp [hmethod] at h
      | none =>
        simp only [hmethod] at h
        cases hfield : accessField types fuel uf₁ ty field with
        | none => simp [hfield] at h
        | some answer =>
          obtain ⟨result, uf₂⟩ := answer
          cases result with
          | error e => simp [hfield] at h
          | ok newTy =>
            simp only [hfield] at h
            exact ih h

/-- What a path stands for that resolves to a value. -/
structure ValuePath (g : ScopeGraph) (scope : ScopeRef) (path : Path) (v : PathValue) : Prop where
  found : ∃ first rest ident d idents, path.idents = first :: rest ∧
    resolveModulePartOfPath g scope first rest = .ok (ident, d, idents) ∧
    d.name = v.name ∧ d.kind = .value v.kind ∧ v.fields.map Prod.fst = idents.map Meta.node

theorem resolveExpressionPath_value {scope : ScopeRef} {path : Path} {uf uf' : UnionFind}
    {v : PathValue}
    (h : resolveExpressionPath types fuel g payloads scope path uf =
      some (.ok (.value v), uf')) : ValuePath g scope path v := by
  have hfunction : ∀ name idents, resolveExpressionPath.resolveFunction payloads name idents uf ≠
      some (.ok (.value v), uf') := by
    intro name idents hne
    unfold resolveExpressionPath.resolveFunction at hne
    cases hf : payloads.function name with
    | none => simp [hf] at hne
    | some f => cases idents <;> simp [hf] at hne
  unfold resolveExpressionPath at h
  cases hidents : path.idents with
  | nil => simp [hidents] at h
  | cons first rest =>
    simp only [hidents] at h
    cases hmodule : resolveModulePartOfPath g scope first rest with
    | error e => simp [hmodule] at h
    | ok r =>
      obtain ⟨ident, d, idents⟩ := r
      simp only [hmodule] at h
      cases hkind : d.kind with
      | value kind =>
        simp only [hkind] at h
        cases hroot : payloads.rootTy d.name with
        | none => simp [hroot] at h
        | some rootTy =>
          simp only [hroot] at h
          obtain ⟨hname, rfl, hfields⟩ := resolveFields_value h
          exact ⟨first, rest, ident, d, idents, hidents, hmodule, hname.symm, hkind, hfields⟩
      | function => exact absurd (by simpa only [hkind] using h) (hfunction d.name idents)
      | method => exact absurd (by simpa only [hkind] using h) (hfunction d.name idents)
      | enum =>
        simp only [hkind] at h
        split at h <;> simp at h
      | _ => simp [hkind] at h

/-- The check of a target answers with what it recorded for the path. -/
theorem checkTarget_ok {scope : ScopeRef} {ctx : Context} {p : Path} {st st' : CheckState}
    {v : PathValue} (h : checkTarget types fuel scope ctx p st = some (.ok v, st')) :
    st'.scopes = st.scopes ∧
      st'.pathKinds = Function.update st.pathKinds p.id (some (.value v)) ∧
        ValuePath st.scopes.toScopeGraph scope p v := by
  unfold checkTarget at h
  cases hunify : unify types fuel st.uf ctx.expectedType .unit with
  | none => simp [hunify] at h
  | some answer =>
    obtain ⟨result, uf⟩ := answer
    cases result with
    | error e => simp [hunify] at h
    | ok t =>
      simp only [hunify] at h
      cases hpath : resolveExpressionPath types fuel st.scopes.toScopeGraph st.payloads scope p
          uf with
      | none => simp [hpath] at h
      | some answer =>
        obtain ⟨result, uf'⟩ := answer
        cases result with
        | error e => simp [hpath] at h
        | ok resolvedPath =>
          simp only [hpath] at h
          cases resolvedPath with
          | value w =>
            obtain ⟨hw, rfl⟩ := Prod.mk.inj (Option.some.inj h)
            obtain rfl := Except.ok.inj hw
            exact ⟨rfl, rfl, resolveExpressionPath_value hpath⟩
          | _ => simp at h

end Roto.TypeChecker
