import RotoCompiler.Mir.Exec
import RotoCompiler.Mir.Lowerer
import RotoCompiler.TypeChecker.AssignedValues

/-!
# What assignments write

Lowering writes the explicit variable with the name of the value, whatever kind of value it is.
So an assignment that the type checker accepts does what it says exactly when its path starts
with a local.
-/

namespace Roto.Mir
open FieldPaths
open TypeChecker (TypeInfo PathValue AssignExpr LocalScopes ValuePath CheckState Context
  Check CheckAnswer TargetKept TypeMap Typ ValueKind checkAssignment checkTarget checkTarget_ok
  pathsOf preserves_check preserves_unwrap resolveModulePartOfPath)
open Ast (Expr Path)

/-! ### The instructions of an assignment -/

def assignCode (place : Place) (ty : Ty) (val : Value) (tmp : Var) : List Instruction :=
  [.assign (Place.new tmp ty) ty val, .drop place ty, .assign place ty (.move tmp)]

/-- A variable that is moved is live. -/
def LiveValue (l : Lowerer) (val : Value) : Prop :=
  ∀ x, val = .move x → ∃ p ∈ l.stackSlot, p.1 = x

theorem removeLiveVariable_some {l : Lowerer} {x : Var} (h : ∃ p ∈ l.stackSlot, p.1 = x) :
    l.removeLiveVariable x = some { l with stackSlot := l.stackSlot.eraseP (·.1 = x) } := by
  have hany : l.stackSlot.any (·.1 = x) = true := by
    obtain ⟨p, hp, hx⟩ := h
    exact List.any_eq_true.mpr ⟨p, hp, decide_eq_true hx⟩
  unfold Lowerer.removeLiveVariable
  rw [if_pos hany]

theorem doAssign_move {l : Lowerer} {dest : Place} {ty : Ty} {x : Var}
    (h : ∃ p ∈ l.stackSlot, p.1 = x) : l.doAssign dest ty (.move x) =
      some ({ l with stackSlot := l.stackSlot.eraseP (·.1 = x) }.emitAssign dest ty (.move x)) := by
  simp only [Lowerer.doAssign, removeLiveVariable_some h, Option.map_some]

/-- A new temporary is live after an assignment to it. -/
theorem doAssign_tmp {l : Lowerer} (ty : Ty) {val : Value} (h : LiveValue l val) :
    ∃ l', (l.tmp ty).doAssign (Place.new l.nextTmp ty) ty val = some l' ∧
      ∃ p ∈ l'.stackSlot, p.1 = l.nextTmp := by
  have hslot : (l.tmp ty).stackSlot = l.stackSlot ++ [(l.nextTmp, ty)] := rfl
  by_cases hmove : ∃ x, val = .move x
  · obtain ⟨x, rfl⟩ := hmove
    obtain ⟨p, hp, hx⟩ := h x rfl
    have hlive : ∃ p ∈ (l.tmp ty).stackSlot, p.1 = x := by
      rw [hslot]
      exact ⟨p, List.mem_append_left _ hp, hx⟩
    refine ⟨_, doAssign_move hlive, (l.nextTmp, ty), ?_, rfl⟩
    show (l.nextTmp, ty) ∈ (l.tmp ty).stackSlot.eraseP _
    rw [hslot, List.eraseP_append_left (a := p) (decide_eq_true hx) _ hp]
    exact List.mem_append_right _ (List.mem_singleton_self _)
  · have hsome : (l.tmp ty).doAssign (Place.new l.nextTmp ty) ty val =
        some ((l.tmp ty).emitAssign (Place.new l.nextTmp ty) ty val) := by
      unfold Lowerer.doAssign
      split
      · exact absurd ⟨_, rfl⟩ hmove
      · rfl
    exact ⟨_, hsome, (l.nextTmp, ty), List.mem_append_right _ (List.mem_singleton_self _), rfl⟩

theorem assignValue_some {l : Lowerer} (place : Place) (ty : Ty) {val : Value}
    (h : LiveValue l val) : ∃ l', assignValue place ty val l = some l' := by
  obtain ⟨l₁, hl₁, hlive⟩ := doAssign_tmp ty h
  have hdrop : ∃ p ∈ (l₁.emitDrop place ty).stackSlot, p.1 = l.nextTmp := hlive
  unfold assignValue
  simp only [hl₁, doAssign_move hdrop]
  exact ⟨_, rfl⟩

theorem doAssign_instructions {l l' : Lowerer} {dest : Place} {ty : Ty} {val : Value}
    (h : l.doAssign dest ty val = some l') :
    l'.instructions = l.instructions ++ [.assign dest ty val] := by
  unfold Lowerer.doAssign at h
  split at h
  · obtain ⟨l₁, hl₁, rfl⟩ := Option.map_eq_some_iff.mp h
    unfold Lowerer.removeLiveVariable at hl₁
    split_ifs at hl₁
    obtain rfl := Option.some.inj hl₁
    rfl
  · obtain rfl := Option.some.inj h
    rfl

theorem assignValue_instructions {l l' : Lowerer} {place : Place} {ty : Ty} {val : Value}
    (h : assignValue place ty val l = some l') :
    l'.instructions = l.instructions ++ assignCode place ty val l.nextTmp := by
  unfold assignValue at h
  cases h₁ : (l.tmp ty).doAssign (Place.new l.nextTmp ty) ty val with
  | none => simp [h₁] at h
  | some l₁ =>
    simp only [h₁] at h
    rw [doAssign_instructions h]
    show l₁.instructions ++ [.drop place ty] ++ _ = _
    rw [doAssign_instructions h₁]
    show l.instructions ++ _ ++ _ ++ _ = _
    rw [List.append_assoc, List.append_assoc]
    rfl

/-- What holds after the instructions of an assignment. -/
structure Assigned {A H : Type} (s s' : State A H) (place : Place) (tmp : Var) (c : Held A) :
    Prop where
  target : s'.read place = c
  others : ∀ var, var ≠ place.var → var ≠ tmp → s'.vars var = s.vars var
  otherFields : ∀ q, Apart place.projection q →
    part (s'.vars place.var) q = part (s.vars place.var) q

theorem exec_assignCode {A H : Type} (m : Machine A H) (s : State A H) {place : Place} {ty : Ty}
    {val : Value} {tmp : Var} {c : Held A} {heap : H} (htmp : place.var ≠ tmp)
    (hval : m.eval s val = some (c, heap)) :
    ∃ s', m.exec s (assignCode place ty val tmp) = some s' ∧ Assigned s s' place tmp c := by
  have hmove : ∀ r : State A H, r.vars tmp = c →
      m.step r (.assign place ty (.move tmp)) = some (r.write place c) := by
    intro r hr
    simp [Machine.step, Machine.eval, hr]
  let s₁ : State A H := { s with heap := heap }.write (Place.new tmp ty) c
  let s₂ : State A H := { s₁ with heap := m.drop (s₁.read place) s₁.heap }
  have htmpVal : s₂.vars tmp = c := State.read_write_self _ (Place.new tmp ty) c
  have hplace : s₂.vars place.var = s.vars place.var :=
    State.write_vars_ne _ c htmp
  refine ⟨s₂.write place c, ?_, ?_, ?_, ?_⟩
  · have hfirst : m.step s (.assign (Place.new tmp ty) ty val) = some s₁ := by
      simp [Machine.step, hval, s₁]
    have hdrop : m.step s₁ (.drop place ty) = some s₂ := rfl
    simp only [assignCode, Machine.exec, hfirst, hdrop, hmove s₂ htmpVal, Option.bind_some]
  · exact State.read_write_self _ place c
  · intro var hvar hvarTmp
    rw [State.write_vars_ne _ c hvar]
    exact State.write_vars_ne _ c hvarTmp
  · intro q hq
    rw [State.write_part_apart _ place c hq, hplace]

/-! ### What an assignment should do -/

/-- The variable is a local of the item. -/
def IsLocalOf (g : LocalScopes) (item : ScopeRef) (var : Var) : Prop :=
  ∃ d, g.declarations d.name = some d ∧ d.kind = .value .local ∧ g.InItem item d.name.scope ∧
    var = ⟨d.name.scope, .explicit d.name.ident⟩

/-- The path is the name of the variable and the fields of the projection. -/
def NamesPlace (path : Path) (place : Place) : Prop :=
  ∃ x fields, path.idents = x :: fields ∧ place.var.kind = .explicit x.node ∧
    place.projection = fields.map fun f => .field f.node

/-- An assignment writes the local and the fields that its path names. After it the path reads
the value that was assigned, and nothing else has changed. -/
structure AssignsLocal (g : LocalScopes) (item : ScopeRef) (info : TypeInfo)
    (lowerExpr : Expr → Lowerer → Option (Value × Lowerer)) (a : AssignExpr) : Prop where
  place : ∃ v, info.pathKind a.path.id = .value v ∧ IsLocalOf g item (placeOf info v).var ∧
    NamesPlace a.path (placeOf info v)
  runs : ∀ v l val l₁, info.pathKind a.path.id = .value v →
    lowerExpr a.value l = some (val, l₁) → LiveValue l₁ val →
    ∃ l' code, lowerAssignment info lowerExpr a l = some (.const .unit .unit, l') ∧
      l'.instructions = l₁.instructions ++ code ∧
      ∀ (A H : Type) (m : Machine A H) s c heap, m.eval s val = some (c, heap) →
        ∃ s', m.exec s code = some s' ∧ Assigned s s' (placeOf info v) l₁.nextTmp c ∧
          ∃ readP heap', pathValue info v = some readP ∧ m.eval s' readP = some (c, heap')

/-- The path starts with a local. -/
def StartsWithLocal (g : LocalScopes) (scope : ScopeRef) (path : Path) : Prop :=
  ∃ first rest ident d idents, path.idents = first :: rest ∧
    resolveModulePartOfPath g.toScopeGraph scope first rest = .ok (ident, d, idents) ∧
    d.kind = .value .local

theorem startsWithLocal_iff {g : LocalScopes} {scope : ScopeRef} {path : Path} {v : PathValue}
    (h : ValuePath g.toScopeGraph scope path v) :
    StartsWithLocal g scope path ↔ v.kind = .local := by
  obtain ⟨first, rest, ident, d, idents, hidents, hmodule, -, hkind, -⟩ := h.found
  constructor
  · rintro ⟨first', rest', ident', d', idents', hidents', hmodule', hlocal⟩
    obtain ⟨rfl, rfl⟩ := List.cons.inj (hidents.symm.trans hidents')
    rw [hmodule] at hmodule'
    obtain ⟨-, hrest⟩ := Prod.mk.inj (Except.ok.inj hmodule')
    obtain ⟨rfl, -⟩ := Prod.mk.inj hrest
    rw [hkind] at hlocal
    exact TypeChecker.DeclarationKind.value.inj hlocal
  · intro hlocal
    rw [hlocal] at hkind
    exact ⟨first, rest, ident, d, idents, hidents, hmodule, hkind⟩

/-- A value that is a local is found in the item, and its fields are those of the path. -/
theorem local_of_valuePath {g : LocalScopes} {item scope : ScopeRef} {path : Path}
    {v : PathValue} (info : TypeInfo) (hitem : g.InItem item scope)
    (h : ValuePath g.toScopeGraph scope path v) (hlocal : v.kind = .local) :
    IsLocalOf g item (placeOf info v).var ∧ NamesPlace path (placeOf info v) := by
  obtain ⟨first, rest, ident, d, idents, hidents, hmodule, hname, hkind, hfields⟩ := h.found
  rw [hlocal] at hkind
  have hfound := LocalScopes.resolveModulePartOfPath_found hmodule
  obtain ⟨hvisible, hfirst⟩ := hfound.isLocal hkind
  have hbody := (hvisible.body hkind).1
  have haround := hvisible.2.2 hkind
  constructor
  · refine ⟨d, hfound.declared, hkind, hitem.of_around haround hbody, ?_⟩
    rw [hname]
    rfl
  · refine ⟨ident, idents, hidents.trans hfirst, ?_, ?_⟩
    · rw [← hvisible.1, hname]
      rfl
    · have hmap : (placeOf info v).projection = (v.fields.map Prod.fst).map .field := by
        simp [placeOf]
      rw [hmap, hfields, List.map_map]
      rfl

/-- A declaration has one kind, so that only a local is written as one. -/
theorem kind_of_isLocalOf {g : LocalScopes} {item scope : ScopeRef} {path : Path}
    {v : PathValue} {info : TypeInfo} (h : ValuePath g.toScopeGraph scope path v)
    (hlocal : IsLocalOf g item (placeOf info v).var) : v.kind = .local := by
  obtain ⟨first, rest, ident, d, idents, -, hmodule, hname, hkind, -⟩ := h.found
  have hdeclared := (LocalScopes.resolveModulePartOfPath_found hmodule).declared
  obtain ⟨d', hd', hlocal', -, hvar⟩ := hlocal
  have hsame : d.name = d'.name := by
    obtain ⟨hscope, hident⟩ := Var.mk.inj hvar
    have hident := VarKind.explicit.inj hident
    exact hname.trans (congrArg₂ ResolvedName.mk hscope hident)
  rw [hsame, hd'] at hdeclared
  obtain rfl := Option.some.inj hdeclared
  rw [hkind] at hlocal'
  exact TypeChecker.DeclarationKind.value.inj hlocal'

/-- The instructions of an assignment to a local. -/
theorem assign_runs {info : TypeInfo}
    {lowerExpr : Expr → Lowerer → Option (Value × Lowerer)} {a : AssignExpr} {v : PathValue}
    {l l₁ : Lowerer} {val : Value} (hinfo : info.pathKind a.path.id = .value v)
    (hlocal : v.kind = .local) (hexpr : lowerExpr a.value l = some (val, l₁))
    (hlive : LiveValue l₁ val) :
    ∃ l' code, lowerAssignment info lowerExpr a l = some (.const .unit .unit, l') ∧
      l'.instructions = l₁.instructions ++ code ∧
      ∀ (A H : Type) (m : Machine A H) s c heap, m.eval s val = some (c, heap) →
        ∃ s', m.exec s code = some s' ∧ Assigned s s' (placeOf info v) l₁.nextTmp c ∧
          ∃ readP heap', pathValue info v = some readP ∧ m.eval s' readP = some (c, heap') := by
  obtain ⟨l', hl'⟩ := assignValue_some (placeOf info v)
    (info.convert (info.typeOf a.value.id)) hlive
  refine ⟨l', _, ?_, assignValue_instructions hl', ?_⟩
  · rw [lowerAssignment_eq]
    unfold assign
    simp only [hinfo, hexpr, hl', Option.map_some]
  · intro A H m s c heap hval
    have htmp : (placeOf info v).var ≠ l₁.nextTmp := by
      intro heq
      exact nomatch (Var.mk.inj heq).2
    obtain ⟨s', hexec, hassigned⟩ := exec_assignCode m s htmp hval
    refine ⟨s', hexec, hassigned, .clone (placeOf info v), m.clone c s'.heap, ?_, ?_⟩
    · unfold pathValue
      rw [hlocal]
    · rw [Machine.eval, hassigned.target]

/-! ### Accepted assignments -/

/-- A check of what is assigned leaves a value of the path recorded for it: other ids are not
that of the path, and an operation on the path checks it again in the scope. -/
def KeepsTarget (check : ScopeRef → Context → Expr → CheckState → CheckAnswer Bool)
    (scope : ScopeRef) (a : AssignExpr) : Prop :=
  ∀ ctx st b st' v, check scope ctx a.value st = some (.ok b, st') →
    st.pathKinds a.path.id = some (.value v) → ValuePath st.scopes.toScopeGraph scope a.path v →
    ∃ v', st'.pathKinds a.path.id = some (.value v') ∧
      ValuePath st.scopes.toScopeGraph scope a.path v'

theorem checkAssignment_ok {types : TypeMap} {fuel : ℕ} {scope : ScopeRef} {ctx : Context}
    {a : AssignExpr} {st st' : CheckState} {b : Bool}
    {check : ScopeRef → Context → Expr → CheckState → CheckAnswer Bool}
    (hkeeps : KeepsTarget check scope a)
    (hok : checkAssignment types fuel check scope ctx a st = some (.ok b, st')) :
    ∃ v, st'.pathKinds a.path.id = some (.value v) ∧
      ValuePath st.scopes.toScopeGraph scope a.path v := by
  unfold checkAssignment at hok
  simp only at hok
  split at hok
  · cases hok
  · cases hok
  next w st₁ htarget =>
    obtain ⟨hscopes, hkinds, hvalue⟩ := checkTarget_ok htarget
    have hrecorded : st₁.pathKinds a.path.id = some (.value w) := by
      rw [hkinds]
      exact Function.update_self ..
    have hkept : ∀ ctx b st₂, check scope ctx a.value st₁ = some (.ok b, st₂) →
        ∃ v, st₂.pathKinds a.path.id = some (.value v) ∧
          ValuePath st.scopes.toScopeGraph scope a.path v := by
      intro ctx b st₂ hcheck
      have hvalue' : ValuePath st₁.scopes.toScopeGraph scope a.path w := by
        rw [hscopes]
        exact hvalue
      obtain ⟨v, hv, hpath⟩ := hkeeps ctx st₁ b st₂ w hcheck hrecorded hvalue'
      rw [hscopes] at hpath
      exact ⟨v, hv, hpath⟩
    split at hok
    next hcheck =>
      obtain ⟨hb, rfl⟩ := Prod.mk.inj (Option.some.inj hok)
      have hrecords := hkept _ _ _ hcheck
      exact hrecords
    next => exact hkept _ _ _ hok

/-- The check of an expression does so, if the id of the path is its own. -/
theorem check_keepsTarget {types : TypeMap} {fuel : ℕ} {scope : ScopeRef}
    {others : ScopeRef → Context → Expr → Check Bool} {a : AssignExpr}
    (hothers : ∀ g ctx e, Check.Preserves (TargetKept g scope a.path) (others scope ctx e))
    (hpaths : ∀ q ∈ pathsOf a.value, q.id = a.path.id → q = a.path) :
    KeepsTarget (a.check types fuel others) scope a := by
  intro ctx st b st' v h hv hpath
  have hst : TargetKept st.scopes.toScopeGraph scope a.path st := ⟨fun _ _ _ => rfl, v, hv, hpath⟩
  exact (preserves_check (hothers _) hpaths ctx a.value st b st' hst h).recorded

/-! ### Two assignments in one function -/

namespace Example

def moduleScopes : LocalScopes :=
  LocalScopes.new.wrap 0 (.module ⟨⟨0, "pkg"⟩, none⟩) false rfl (by intro h; cases h)

def constantScopes : LocalScopes :=
  moduleScopes.enter ⟨⟨1, "C"⟩, .value .constant, 1, none⟩ {
    present := by decide
    isLocal := by intro h; cases h
    outside := by intro k h; cases h
    keeps := by intro old h; cases h }

def functionScopes : LocalScopes :=
  constantScopes.wrap 1 .other true rfl (by intro h; cases h)

/-- A function with a variable `x`, in a module with a constant `C`. -/
def scopes : LocalScopes :=
  functionScopes.enter ⟨⟨2, "x"⟩, .value .local, 2, none⟩ {
    present := by decide
    isLocal := by intro h; exact ⟨rfl, rfl, rfl⟩
    outside := by intro k h; cases h
    keeps := by intro old h; cases h }

def u32 : Typ := .named "u32" []

def types : TypeMap := [(⟨0, "u32"⟩, .primitive (.int .unsigned .i32))]

def state : CheckState where
  uf := .empty
  scopes := scopes
  payloads := ⟨fun _ => some u32, fun _ => none, fun _ => none⟩
  pathKinds := fun _ => none
  exprTypes := fun _ => none

def context : Context := ⟨.unit, none, ⟨1, "f"⟩⟩

/-- No other expressions. -/
def others (_ : ScopeRef) (_ : Context) (_ : Expr) : Check Bool := Check.unwrap none

/-- `x = 2`. -/
def assignTwo (x : Identifier) : AssignExpr :=
  .assign 10 ⟨11, [⟨x, 12⟩]⟩ (.literal 13 ⟨.integer 2 none, 14⟩)

def valueOf (x : Identifier) (scope : ScopeRef) (kind : ValueKind) : PathValue :=
  ⟨⟨scope, x⟩, kind, u32, []⟩

def info (v : PathValue) : TypeInfo where
  types := types
  typeOf := fun _ => u32
  resolvedName := fun _ => v.name
  functionScope := fun _ => 2
  function := fun _ => ⟨⟨[], [], .unit⟩, v.name, .roto⟩
  pathKind := fun _ => .value v
  diverges := fun _ => false
  convert := fun _ => .primitive (.int .unsigned .i32)

def lowerLiteral (e : Expr) (l : Lowerer) : Option (Value × Lowerer) :=
  match e with
  | .literal _ lit => some (.const lit.node (.primitive (.int .unsigned .i32)), l)
  | _ => none

theorem assignTwo_keepsTarget (x : Identifier) :
    KeepsTarget ((assignTwo x).check types 5 others) 2 (assignTwo x) :=
  check_keepsTarget (fun _ _ _ => preserves_unwrap none) fun _ hq => nomatch hq

theorem inItem : scopes.InItem 2 2 := by
  refine ⟨⟨rfl, ?_⟩, .refl 2⟩
  intro p hp
  obtain rfl := Option.some.inj hp
  rfl

/-- What the check of `x = 2` records for `x`. -/
def recorded (x : Identifier) : Option (Bool × Option TypeChecker.ResolvedPath) :=
  match checkAssignment types 5 ((assignTwo x).check types 5 others) 2 context (assignTwo x)
    state with
  | some (.ok b, st) => some (b, st.pathKinds 11)
  | _ => none

theorem accepted_of_recorded {x : Identifier} {v : PathValue}
    (h : recorded x = some (false, some (.value v))) :
    ∃ st', checkAssignment types 5 ((assignTwo x).check types 5 others) 2 context (assignTwo x)
      state = some (.ok false, st') ∧
      st'.pathKinds (assignTwo x).path.id = some ((info v).pathKind (assignTwo x).path.id) := by
  unfold recorded at h
  split at h
  next b st' hok =>
    obtain ⟨rfl, hst'⟩ := Prod.mk.inj (Option.some.inj h)
    exact ⟨st', hok, hst'⟩
  next => cases h

end Example

/-- An accepted assignment does what it says exactly when its path starts with a local. -/
theorem assignment_reaches_local {types : TypeMap} {fuel : ℕ} {scope item : ScopeRef}
    {ctx : Context} {a : AssignExpr} {st st' : CheckState} {b : Bool} {info : TypeInfo}
    {check : ScopeRef → Context → Expr → CheckState → CheckAnswer Bool}
    {lowerExpr : Expr → Lowerer → Option (Value × Lowerer)} (hkeeps : KeepsTarget check scope a)
    (hitem : st.scopes.InItem item scope)
    (hok : checkAssignment types fuel check scope ctx a st = some (.ok b, st'))
    (hinfo : st'.pathKinds a.path.id = some (info.pathKind a.path.id)) :
    AssignsLocal st.scopes item info lowerExpr a ↔ StartsWithLocal st.scopes scope a.path := by
  obtain ⟨v, hrecorded, hvalue⟩ := checkAssignment_ok hkeeps hok
  have hv : info.pathKind a.path.id = .value v :=
    Option.some.inj (hinfo.symm.trans hrecorded)
  have hunique : ∀ w, info.pathKind a.path.id = .value w → w = v := by
    intro w hw
    exact TypeChecker.ResolvedPath.value.inj (hw.symm.trans hv)
  rw [startsWithLocal_iff hvalue]
  constructor
  · rintro ⟨⟨w, hw, hlocal, -⟩, -⟩
    obtain rfl := hunique w hw
    exact kind_of_isLocalOf hvalue hlocal
  · intro hlocal
    refine ⟨⟨v, hv, local_of_valuePath info hitem hvalue hlocal⟩, ?_⟩
    intro w l val l₁ hw hexpr hlive
    obtain rfl := hunique w hw
    exact assign_runs hv hlocal hexpr hlive

theorem assignment_reaches_local_x :
    AssignsLocal Example.scopes 2 (Example.info (Example.valueOf "x" 2 .local))
      Example.lowerLiteral (Example.assignTwo "x") := by
  have hrecorded : Example.recorded "x" =
      some (false, some (.value (Example.valueOf "x" 2 .local))) := by rfl
  obtain ⟨st', hok, hinfo⟩ := Example.accepted_of_recorded hrecorded
  refine (assignment_reaches_local (Example.assignTwo_keepsTarget "x") Example.inItem hok
    hinfo).mpr ?_
  exact ⟨⟨"x", 12⟩, [], ⟨"x", 12⟩, ⟨⟨2, "x"⟩, .value .local, 2, none⟩, [], rfl, rfl, rfl⟩

/-- The constant is accepted as a target. -/
theorem constant_accepted :
    ¬ ∀ (types : TypeMap) (fuel : ℕ) (scope item : ScopeRef) (ctx : Context) (a : AssignExpr)
      (st st' : CheckState) (b : Bool) (info : TypeInfo)
      (check : ScopeRef → Context → Expr → CheckState → CheckAnswer Bool)
      (lowerExpr : Expr → Lowerer → Option (Value × Lowerer)),
      KeepsTarget check scope a → st.scopes.InItem item scope →
      checkAssignment types fuel check scope ctx a st = some (.ok b, st') →
      st'.pathKinds a.path.id = some (info.pathKind a.path.id) →
      AssignsLocal st.scopes item info lowerExpr a := by
  intro h
  have hrecorded : Example.recorded "C" =
      some (false, some (.value (Example.valueOf "C" 1 .constant))) := by rfl
  obtain ⟨st', hok, hinfo⟩ := Example.accepted_of_recorded hrecorded
  have hassigns := h _ _ _ _ _ _ _ _ _ _ _ Example.lowerLiteral
    (Example.assignTwo_keepsTarget "C") Example.inItem hok hinfo
  obtain ⟨v, hv, hlocal, -⟩ := hassigns.place
  obtain ⟨w, hw, hpath⟩ := checkAssignment_ok (Example.assignTwo_keepsTarget "C") hok
  obtain rfl : w = v :=
    TypeChecker.ResolvedPath.value.inj
      (Option.some.inj (hw.symm.trans (hinfo.trans (congrArg some hv))))
  obtain rfl := TypeChecker.ResolvedPath.value.inj hv
  exact nomatch kind_of_isLocalOf hpath hlocal

end Roto.Mir
