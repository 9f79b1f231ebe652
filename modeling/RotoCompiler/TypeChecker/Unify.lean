import RotoCompiler.TypeChecker.UnionFind

/-!
# Unification (typechecker/mod.rs, unify_inner and its helpers)

`unifyInner` first resolves both types and then takes one of the arms of the
source's `match`. What an arm goes on to do is one of five things (`Rule`), so the
match itself is a plain function `unifyArm`. Unification changes the store in
place, also when it fails half way: a call gives its `Option<Type>` together with the
store it leaves behind. The outer `none` is a call that does not return, because the
recursion goes on for ever or an `ice!` or assertion stops it.

A run of `unifyInner` flattens to a list of jobs (`Solve`). The list says in which
order the store is written and by which arm, and every invariant of unification is
an induction over it.
-/

namespace Roto.TypeChecker

/-- What an arm of `unify_inner` does with the two resolved types. -/
inductive Rule where
  /-- give `t` -/
  | done (t : Typ)
  /-- `unionfind.set(v, t)` and give `t` -/
  | bind (v : ℕ) (t : Typ)
  /-- unify pair after pair and give `t` -/
  | pairs (ps : List (Typ × Typ)) (t : Typ)
  /-- `unify_fields(a, b)?`, then `unionfind.set(v, t)`, and give `t` -/
  | fields (a b : Fields) (v : ℕ) (t : Typ)
  /-- `return None` -/
  | fail
  deriving Repr

/-- `TypeChecker::unify_intvars`. -/
def unifyIntvars (a : ℕ) (aSigned : MustBeSigned) (b : ℕ) (bSigned : MustBeSigned) : Rule :=
  if aSigned = .yes ∧ bSigned = .no then .bind b (.intVar a aSigned)
  else .bind a (.intVar b bSigned)

/-- The arms `(IntVar(b, s), Name(name)) | (Name(name), IntVar(b, s))`. -/
def unifyIntName (types : TypeMap) (b : ℕ) (s : MustBeSigned) (name : ResolvedName)
    (arguments : List Typ) : Option Rule :=
  if arguments ≠ [] then some .fail
  else
    match types.resolveTypeName name with
    | none => none
    | some typeDef =>
      let correct := if s = .yes then typeDef.isSignedInt else typeDef.isInt
      if correct then some (.bind b (.name name arguments)) else some .fail

/-- The arms `(FloatVar(b), Name(name)) | (Name(name), FloatVar(b))`. -/
def unifyFloatName (types : TypeMap) (b : ℕ) (name : ResolvedName)
    (arguments : List Typ) : Option Rule :=
  if arguments ≠ [] then some .fail
  else
    match types.resolveTypeName name with
    | none => none
    | some typeDef =>
      if typeDef.isFloat then some (.bind b (.name name arguments)) else some .fail

/-- The arms `(RecordVar(var, fields), Name(name)) | (Name(name), RecordVar(var, fields))`. -/
def unifyRecordName (types : TypeMap) (var : ℕ) (fields : Fields) (name : ResolvedName)
    (arguments : List Typ) : Option Rule :=
  match types.resolveTypeName name with
  | none => none
  | some typeDef =>
    match typeDef.recordFields arguments with
    | none => none
    | some none => some .fail
    | some (some namedFields) => some (.fields fields namedFields var (.name name arguments))

/-- The `match (a, b)` of `unify_inner`, arm by arm. -/
def unifyArm (types : TypeMap) (a b : Typ) : Option Rule :=
  if a = b then some (.done a)
  else
    match a, b with
    | .explicitVar _, _ => none
    | _, .explicitVar _ => none
    | .never, x => some (.done x)
    | x, .never => some (.done x)
    | .intVar a aSigned, .intVar b bSigned => some (unifyIntvars a aSigned b bSigned)
    | .intVar b s, .name n as => unifyIntName types b s n as
    | .name n as, .intVar b s => unifyIntName types b s n as
    | .floatVar a, .floatVar b => some (.bind a (.floatVar b))
    | .floatVar b, .name n as => unifyFloatName types b n as
    | .name n as, .floatVar b => unifyFloatName types b n as
    | .var a, b => some (.bind a b)
    | a, .var b => some (.bind b a)
    | .recordVar aVar aFields, .recordVar bVar bFields =>
      some (.fields aFields bFields aVar (.recordVar bVar bFields))
    | .recordVar aVar aFields, .record bFields =>
      some (.fields aFields bFields aVar (.record bFields))
    | .record aFields, .recordVar bVar bFields =>
      some (.fields aFields bFields bVar (.record aFields))
    | .recordVar var fields, .name n as => unifyRecordName types var fields n as
    | .name n as, .recordVar var fields => unifyRecordName types var fields n as
    | .name n as, .name m bs =>
      if n ≠ m then some .fail else some (.pairs (as.zip bs) (.name m bs))
    | .function aParams aRet, .function bParams bRet =>
      some (.pairs (aParams.zip bParams ++ [(aRet, bRet)]) (.function bParams bRet))
    | _, _ => some .fail

/-- A call's answer, `None` being a failed unification, and the store after it. -/
abbrev UnifyResult (α : Type) := Option (Option α × UnionFind)

/-- The loops over type arguments and parameters: unify each pair, stop at a failure. -/
def unifyPairs (unify : UnionFind → Typ → Typ → UnifyResult Typ) :
    UnionFind → List (Typ × Typ) → UnifyResult Unit
  | uf, [] => some (some (), uf)
  | uf, (a, b) :: ps =>
    match unify uf a b with
    | none => none
    | some (none, uf) => some (none, uf)
    | some (some _, uf) => unifyPairs unify uf ps

/-- `position` and `remove`: the field of that name and the other fields. -/
def takeField (name : Identifier) : Fields → Option (Typ × Fields)
  | [] => none
  | (n, t) :: fs =>
    if n.node = name then some (t, fs)
    else (takeField name fs).map fun (u, rest) => (u, (n, t) :: rest)

/-- The loop of `unify_fields`. -/
def unifyFieldsLoop (unify : UnionFind → Typ → Typ → UnifyResult Typ) :
    UnionFind → Fields → Fields → UnifyResult Fields
  | uf, [], _ => some (some [], uf)
  | uf, (name, aTy) :: aFields, bFields =>
    match takeField name.node bFields with
    | none => some (none, uf)
    | some (bTy, bFields) =>
      match unify uf aTy bTy with
      | none => none
      | some (none, uf) => some (none, uf)
      | some (some t, uf) =>
        match unifyFieldsLoop unify uf aFields bFields with
        | none => none
        | some (none, uf) => some (none, uf)
        | some (some newFields, uf) => some (some ((name, t) :: newFields), uf)

/-- `TypeChecker::unify_fields`. -/
def unifyFields (unify : UnionFind → Typ → Typ → UnifyResult Typ) (uf : UnionFind)
    (aFields bFields : Fields) : UnifyResult Fields :=
  if aFields.length ≠ bFields.length then some (none, uf)
  else unifyFieldsLoop unify uf aFields bFields

/-- `TypeChecker::unify_inner`. -/
def unifyInner (types : TypeMap) : ℕ → UnionFind → Typ → Typ → UnifyResult Typ
  | 0, _, _, _ => none
  | fuel + 1, uf, a, b =>
    match uf.resolve fuel a with
    | none => none
    | some (a, uf) =>
      match uf.resolve fuel b with
      | none => none
      | some (b, uf) =>
        match unifyArm types a b with
        | none => none
        | some (.done t) => some (some t, uf)
        | some (.bind v t) => some (some t, uf.set v t)
        | some (.pairs ps t) =>
          match unifyPairs (unifyInner types fuel) uf ps with
          | none => none
          | some (none, uf) => some (none, uf)
          | some (some (), uf) => some (some t, uf)
        | some (.fields aFields bFields v t) =>
          match unifyFields (unifyInner types fuel) uf aFields bFields with
          | none => none
          | some (none, uf) => some (none, uf)
          | some (some _, uf) => some (some t, uf.set v t)
        | some .fail => some (none, uf)

/-- `TypeChecker::unify`, whose error carries both types as resolved afterwards. -/
def unify (types : TypeMap) (fuel : ℕ) (uf : UnionFind) (a b : Typ) :
    Option (Except (Typ × Typ) Typ × UnionFind) :=
  match unifyInner types fuel uf a b with
  | none => none
  | some (some t, uf) => some (.ok t, uf)
  | some (none, uf) =>
    match uf.resolve fuel a with
    | none => none
    | some (a, uf) =>
      match uf.resolve fuel b with
      | none => none
      | some (b, uf) => some (.error (a, b), uf)

/-! ### A run as a list of jobs -/

/-- The types a type is made of: arguments, fields, or result and parameters. -/
def Typ.children : Typ → List Typ
  | .recordVar _ fs => fs.map Prod.snd
  | .record fs => fs.map Prod.snd
  | .function ps r => r :: ps
  | .name _ as => as
  | _ => []

/-- What is still to be done in a run. A job is `exposed` when a difference that it
leaves behind is a difference of the two types the run was started for; the fields of
a record variable are not, since the variable is bound to the other side afterwards. -/
inductive Job where
  | unify (exposed : Bool) (a b : Typ)
  | bind (v : ℕ) (t : Typ)
  | fail (a b : Typ)
  deriving Repr

inductive Outcome where
  | ok
  /-- the two resolved types that no arm unifies -/
  | clash (a b : Typ)
  deriving DecidableEq, Repr

def Outcome.isOk : Outcome → Bool
  | .ok => true
  | .clash _ _ => false

/-- One write of unification: the store before it, the variable and its new type. -/
structure Binding where
  before : UnionFind
  var : ℕ
  type : Typ

/-- The pairs of field types that `unify_fields` gets to, and whether it finds a
partner for every field. -/
def matchFields : Fields → Fields → List (Typ × Typ) × Bool
  | [], _ => ([], true)
  | (name, aTy) :: aFields, bFields =>
    match takeField name.node bFields with
    | none => ([], false)
    | some (bTy, rest) => ((aTy, bTy) :: (matchFields aFields rest).1, (matchFields aFields rest).2)

def unifyJobs (exposed : Bool) (ps : List (Typ × Typ)) : List Job :=
  ps.map fun p => .unify exposed p.1 p.2

/-- The jobs of an arm, for the resolved types `a` and `b`. -/
def Rule.jobs (exposed : Bool) (a b : Typ) : Rule → List Job
  | .done _ => []
  | .bind v t => [.bind v t]
  | .pairs ps _ => unifyJobs exposed ps
  | .fields as bs v t =>
    if as.length ≠ bs.length then [.fail a b]
    else unifyJobs false (matchFields as bs).1 ++
      [cond (matchFields as bs).2 (.bind v t) (.fail a b)]
  | .fail => [.fail a b]

/-- The arm accepts two types without making them equal: `Never` against another type,
or two lists zipped at different lengths. -/
def Rule.skips (a b : Typ) : Rule → Bool
  | .done _ => decide (a ≠ b)
  | .pairs _ _ => decide (a.children.length ≠ b.children.length)
  | _ => false

/-- A whole run: from a store and a list of jobs to the log of writes, whether an
exposed job was skipped, the outcome and the store left behind. -/
inductive Solve (types : TypeMap) :
    UnionFind → List Job → List Binding → Bool → Outcome → UnionFind → Prop where
  | nil (uf : UnionFind) : Solve types uf [] [] false .ok uf
  | bind {uf uf' : UnionFind} {v : ℕ} {t : Typ} {js : List Job} {log : List Binding}
      {s : Bool} {o : Outcome} (h : Solve types (uf.set v t) js log s o uf') :
      Solve types uf (.bind v t :: js) (⟨uf, v, t⟩ :: log) s o uf'
  | fail (uf : UnionFind) (a b : Typ) (js : List Job) :
      Solve types uf (.fail a b :: js) [] false (.clash a b) uf
  | unify {uf uf₁ uf₂ uf' : UnionFind} {n m : ℕ} {e : Bool} {a b a' b' : Typ} {r : Rule}
      {js : List Job} {log : List Binding} {s : Bool} {o : Outcome}
      (ha : uf.resolve n a = some (a', uf₁)) (hb : uf₁.resolve m b = some (b', uf₂))
      (hr : unifyArm types a' b' = some r)
      (h : Solve types uf₂ (r.jobs e a' b' ++ js) log s o uf') :
      Solve types uf (.unify e a b :: js) log (s || (e && r.skips a' b')) o uf'

namespace Solve

variable {types : TypeMap} {uf uf₁ uf' : UnionFind} {js js' : List Job}
  {log log' : List Binding} {s s' : Bool} {o : Outcome}

theorem append (h : Solve types uf js log s .ok uf₁) (h' : Solve types uf₁ js' log' s' o uf') :
    Solve types uf (js ++ js') (log ++ log') (s || s') o uf' := by
  generalize ho : Outcome.ok = o₁ at h
  induction h with
  | nil uf => simpa using h'
  | bind _ ih => exact .bind (ih h' ho)
  | fail => cases ho
  | @unify uf uf₁ uf₂ uf₃ n m e a b a' b' r js log s o ha hb hr _ ih =>
    have h₁ := Solve.unify (e := e) ha hb hr (by rw [← List.append_assoc]; exact ih h' ho)
    have hs : ((s || s') || (e && r.skips a' b')) = ((s || (e && r.skips a' b')) || s') := by
      cases s <;> cases s' <;> simp
    rw [hs] at h₁
    exact h₁

end Solve

/-! ### The jobs carried out by the function -/

/-- The jobs of a list one after the other, with `unify` for the unification jobs. -/
def runJobs (unify : UnionFind → Typ → Typ → UnifyResult Typ) :
    UnionFind → List Job → Option (Bool × UnionFind)
  | uf, [] => some (true, uf)
  | uf, .bind v t :: js => runJobs unify (uf.set v t) js
  | uf, .fail _ _ :: _ => some (false, uf)
  | uf, .unify _ a b :: js =>
    match unify uf a b with
    | none => none
    | some (none, uf) => some (false, uf)
    | some (some _, uf) => runJobs unify uf js

/-- Success or failure, without the type that was given. -/
def UnifyResult.verdict {α : Type} (r : UnifyResult α) : Option (Bool × UnionFind) :=
  r.map fun p => (p.1.isSome, p.2)

section
variable {f g : UnionFind → Typ → Typ → UnifyResult Typ}

theorem runJobs_unifyJobs (e : Bool) (ps : List (Typ × Typ)) (uf : UnionFind) :
    runJobs f uf (unifyJobs e ps) = (unifyPairs f uf ps).verdict := by
  induction ps generalizing uf with
  | nil => rfl
  | cons p ps ih =>
    obtain ⟨a, b⟩ := p
    simp only [unifyJobs, List.map_cons, runJobs, unifyPairs]
    rcases f uf a b with _ | ⟨_ | t, uf₁⟩
    · rfl
    · rfl
    · exact ih uf₁

theorem runJobs_append (uf : UnionFind) (js js' : List Job) :
    runJobs f uf (js ++ js') =
      match runJobs f uf js with
      | none => none
      | some (false, uf) => some (false, uf)
      | some (true, uf) => runJobs f uf js' := by
  induction js generalizing uf with
  | nil => rfl
  | cons j js ih =>
    cases j with
    | bind v t => exact ih _
    | fail a b => rfl
    | unify e a b =>
      simp only [List.cons_append, runJobs]
      rcases f uf a b with _ | ⟨_ | t, uf₁⟩
      · rfl
      · rfl
      · exact ih uf₁

/-- The loop over fields as a list of jobs, with what comes after it. -/
theorem runJobs_fields (aFields bFields : Fields) (uf : UnionFind) (j : Job) (x y : Typ) :
    runJobs f uf (unifyJobs false (matchFields aFields bFields).1 ++
        [cond (matchFields aFields bFields).2 j (.fail x y)]) =
      match unifyFieldsLoop f uf aFields bFields with
      | none => none
      | some (none, uf) => some (false, uf)
      | some (some _, uf) => runJobs f uf [j] := by
  induction aFields generalizing bFields uf with
  | nil => rfl
  | cons p aFields ih =>
    obtain ⟨n, t⟩ := p
    simp only [matchFields, unifyFieldsLoop]
    cases takeField n.node bFields with
    | none => rfl
    | some q =>
      obtain ⟨u, rest⟩ := q
      simp only [unifyJobs, List.map_cons, List.cons_append, runJobs]
      rcases f uf t u with _ | ⟨_ | w, uf₁⟩
      · rfl
      · rfl
      · have h := ih rest uf₁
        simp only [unifyJobs] at h
        dsimp only
        rw [h]
        rcases unifyFieldsLoop f uf₁ aFields rest with _ | ⟨_ | l, uf₂⟩ <;> rfl

/-- Running more: where `f` answers, `g` gives the same answer. -/
def Extends (f g : UnionFind → Typ → Typ → UnifyResult Typ) : Prop :=
  ∀ uf a b r, f uf a b = some r → g uf a b = some r

theorem runJobs_extends (h : Extends f g) {uf : UnionFind} {js : List Job}
    {r : Bool × UnionFind} (hr : runJobs f uf js = some r) : runJobs g uf js = some r := by
  induction js generalizing uf with
  | nil => exact hr
  | cons j js ih =>
    cases j with
    | bind v t => exact ih hr
    | fail a b => exact hr
    | unify e a b =>
      simp only [runJobs] at hr ⊢
      cases hf : f uf a b with
      | none => simp [hf] at hr
      | some p =>
        rw [h uf a b p hf]
        obtain ⟨_ | t, uf₁⟩ := p
        · simpa only [hf] using hr
        · simp only [hf] at hr
          exact ih hr

theorem unifyPairs_extends (h : Extends f g) {uf : UnionFind} {ps : List (Typ × Typ)}
    {r : Option Unit × UnionFind} (hr : unifyPairs f uf ps = some r) :
    unifyPairs g uf ps = some r := by
  induction ps generalizing uf with
  | nil => exact hr
  | cons p ps ih =>
    simp only [unifyPairs] at hr ⊢
    cases hf : f uf p.1 p.2 with
    | none => simp [hf] at hr
    | some q =>
      rw [h _ _ _ q hf]
      obtain ⟨_ | t, uf₁⟩ := q
      · simpa only [hf] using hr
      · simp only [hf] at hr
        exact ih hr

theorem unifyFieldsLoop_extends (h : Extends f g) {uf : UnionFind} {as bs : Fields}
    {r : Option Fields × UnionFind} (hr : unifyFieldsLoop f uf as bs = some r) :
    unifyFieldsLoop g uf as bs = some r := by
  induction as generalizing uf bs r with
  | nil => exact hr
  | cons p as ih =>
    simp only [unifyFieldsLoop] at hr ⊢
    cases ht : takeField p.1.node bs with
    | none => simpa only [ht] using hr
    | some q =>
      simp only [ht] at hr ⊢
      cases hf : f uf p.2 q.1 with
      | none => simp [hf] at hr
      | some w =>
        rw [h _ _ _ w hf]
        obtain ⟨_ | t, uf₁⟩ := w
        · simpa only [hf] using hr
        · simp only [hf] at hr ⊢
          cases hl : unifyFieldsLoop f uf₁ as q.2 with
          | none => simp [hl] at hr
          | some z =>
            rw [ih hl]
            simpa only [hl] using hr

end

/-- A call that returns goes through one arm, whose jobs it carries out. -/
theorem unifyInner_succ (types : TypeMap) (fuel : ℕ) (e : Bool) (uf : UnionFind) (a b : Typ) :
    (unifyInner types (fuel + 1) uf a b).verdict =
      match uf.resolve fuel a with
      | none => none
      | some (a, uf) =>
        match uf.resolve fuel b with
        | none => none
        | some (b, uf) =>
          match unifyArm types a b with
          | none => none
          | some r => runJobs (unifyInner types fuel) uf (r.jobs e a b) := by
  simp only [unifyInner]
  rcases uf.resolve fuel a with _ | ⟨a', uf₁⟩
  · rfl
  dsimp only
  rcases uf₁.resolve fuel b with _ | ⟨b', uf₂⟩
  · rfl
  simp only
  rcases unifyArm types a' b' with _ | r
  · rfl
  cases r with
  | done t => rfl
  | bind v t => rfl
  | fail => rfl
  | pairs ps t =>
    simp only [Rule.jobs, runJobs_unifyJobs]
    rcases unifyPairs (unifyInner types fuel) uf₂ ps with _ | ⟨_ | ⟨⟩, uf₃⟩ <;> rfl
  | fields as bs v t =>
    simp only [Rule.jobs, unifyFields]
    by_cases hlen : as.length = bs.length
    · simp only [hlen, ne_eq, not_true_eq_false, if_false, runJobs_fields]
      rcases unifyFieldsLoop (unifyInner types fuel) uf₂ as bs with _ | ⟨_ | l, uf₃⟩ <;> rfl
    · simp only [hlen, ne_eq, not_false_eq_true, if_true]
      rfl

theorem unifyInner_extends (types : TypeMap) (fuel : ℕ) :
    Extends (unifyInner types fuel) (unifyInner types (fuel + 1)) := by
  induction fuel with
  | zero => intro uf a b r h; cases h
  | succ fuel ih =>
    intro uf a b r h
    rw [unifyInner] at h ⊢
    cases ha : uf.resolve fuel a with
    | none => simp [ha] at h
    | some p =>
      rw [UnionFind.resolve_mono ha (Nat.le_succ fuel)]
      simp only [ha] at h ⊢
      cases hb : p.2.resolve fuel b with
      | none => simp [hb] at h
      | some q =>
        rw [UnionFind.resolve_mono hb (Nat.le_succ fuel)]
        simp only [hb] at h ⊢
        rcases hr : unifyArm types p.1 q.1 with _ | rule
        · simp [hr] at h
        cases rule with
        | done t => simpa only [hr] using h
        | bind v t => simpa only [hr] using h
        | fail => simpa only [hr] using h
        | pairs ps t =>
          simp only [hr] at h ⊢
          cases hp : unifyPairs (unifyInner types fuel) q.2 ps with
          | none => simp [hp] at h
          | some w =>
            rw [unifyPairs_extends ih hp]
            simpa only [hp] using h
        | fields as bs v t =>
          simp only [hr, unifyFields] at h ⊢
          by_cases hlen : as.length = bs.length
          · simp only [hlen, ne_eq, not_true_eq_false, if_false] at h ⊢
            cases hl : unifyFieldsLoop (unifyInner types fuel) q.2 as bs with
            | none => simp [hl] at h
            | some w =>
              rw [unifyFieldsLoop_extends ih hl]
              simpa only [hl] using h
          · simpa only [hlen, ne_eq, not_false_eq_true, if_true] using h

theorem unifyInner_mono (types : TypeMap) {fuel fuel' : ℕ} (hle : fuel ≤ fuel') :
    Extends (unifyInner types fuel) (unifyInner types fuel') := by
  induction hle with
  | refl => exact fun _ _ _ _ h => h
  | step _ ih => exact fun uf a b r h => unifyInner_extends types _ uf a b r (ih uf a b r h)

/-- Every run of the jobs is a run of the function, given enough fuel. -/
theorem Solve.runJobs {types : TypeMap} {uf uf' : UnionFind} {js : List Job}
    {log : List Binding} {s : Bool} {o : Outcome} (h : Solve types uf js log s o uf') :
    ∃ fuel, runJobs (unifyInner types fuel) uf js = some (o.isOk, uf') := by
  induction h with
  | nil uf => exact ⟨0, rfl⟩
  | bind _ ih => exact ih
  | fail uf a b js => exact ⟨0, rfl⟩
  | @unify uf uf₁ uf₂ uf' n m e a b a' b' r js log s o ha hb hr _ ih =>
    obtain ⟨k, hk⟩ := ih
    -- enough fuel for both lookups and for the rest of the run
    have hrest : Roto.TypeChecker.runJobs (unifyInner types (k + n + m)) uf₂
        (r.jobs e a' b' ++ js) = some (o.isOk, uf') :=
      runJobs_extends (unifyInner_mono types (by omega)) hk
    rw [runJobs_append] at hrest
    refine ⟨k + n + m + 1, ?_⟩
    have hsucc := unifyInner_succ types (k + n + m) e uf a b
    simp only [UnionFind.resolve_mono ha (by omega : n ≤ k + n + m),
      UnionFind.resolve_mono hb (by omega : m ≤ k + n + m), hr] at hsucc
    rw [← hsucc] at hrest
    simp only [Roto.TypeChecker.runJobs]
    rcases hu : unifyInner types (k + n + m + 1) uf a b with _ | ⟨_ | t, uf₃⟩
    · simp [hu, UnifyResult.verdict] at hrest
    · simpa [hu, UnifyResult.verdict] using hrest
    · simp only [hu, UnifyResult.verdict, Option.map_some, Option.isSome_some] at hrest
      exact runJobs_extends (unifyInner_extends types _) hrest

theorem Solve.unifyInner {types : TypeMap} {uf uf' : UnionFind} {e : Bool} {a b : Typ}
    {log : List Binding} {s : Bool} {o : Outcome}
    (h : Solve types uf [.unify e a b] log s o uf') :
    ∃ fuel r, unifyInner types fuel uf a b = some (r, uf') ∧ r.isSome = o.isOk := by
  obtain ⟨fuel, hf⟩ := h.runJobs
  refine ⟨fuel, ?_⟩
  simp only [Roto.TypeChecker.runJobs] at hf
  rcases hu : Roto.TypeChecker.unifyInner types fuel uf a b with _ | ⟨_ | t, uf₃⟩
  · simp [hu] at hf
  · simp only [hu, Option.some.injEq, Prod.mk.injEq] at hf
    exact ⟨none, by rw [hf.2], by rw [← hf.1]; rfl⟩
  · simp only [hu, Option.some.injEq, Prod.mk.injEq] at hf
    exact ⟨some t, by rw [hf.2], by rw [← hf.1]; rfl⟩

end Roto.TypeChecker
