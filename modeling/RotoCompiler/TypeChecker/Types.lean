import Mathlib.Algebra.Ring.Nat
import Mathlib.Data.List.Nodup

/-!
# Types of the type checker (typechecker/types.rs, parser/meta.rs)

The unresolved types of the checker, the definitions of named types, and
substitution of type parameters. A `TypeId` of the Rust side is a number here;
everything else follows the source's own data types.
-/

namespace Roto

abbrev Identifier := String
abbrev MetaId := ℕ

/-- `Meta<T>`: a node with its source id. Two nodes are equal only when the ids
are equal too (`meta.rs`, derived `PartialEq`). -/
structure Meta (α : Type) where
  node : α
  id : MetaId
  deriving DecidableEq, Repr

/-- `ScopeRef(usize)`; the root of the scope graph is number 0. -/
abbrev ScopeRef := ℕ

def ScopeRef.GLOBAL : ScopeRef := 0

structure ResolvedName where
  scope : ScopeRef
  ident : Identifier
  deriving DecidableEq, Repr

inductive IntSize where
  | i8 | i16 | i32 | i64
  deriving DecidableEq, Repr

inductive IntKind where
  | unsigned | signed
  deriving DecidableEq, Repr

inductive FloatSize where
  | f32 | f64
  deriving DecidableEq, Repr

inductive Primitive where
  | int (kind : IntKind) (size : IntSize)
  | float (size : FloatSize)
  | string | char | bool | asn | ipAddr | ipPrefix
  deriving DecidableEq, Repr

inductive MustBeSigned where
  | yes | no
  deriving DecidableEq, Repr

namespace TypeChecker

/-- `types::Type`. The payload `TypeName` of `Type::Name` is written out as its
name and its arguments. -/
inductive Typ where
  | var (n : ℕ)
  | explicitVar (ident : Identifier)
  | intVar (n : ℕ) (signed : MustBeSigned)
  | floatVar (n : ℕ)
  | recordVar (n : ℕ) (fields : List (Meta Identifier × Typ))
  | unit
  | never
  | record (fields : List (Meta Identifier × Typ))
  | function (params : List Typ) (ret : Typ)
  | name (name : ResolvedName) (arguments : List Typ)
  deriving Repr

abbrev Fields := List (Meta Identifier × Typ)

/-- Induction over a type with one case for each constructor; the hypotheses for
lists of types and of fields speak of their members. -/
@[induction_eliminator]
theorem Typ.ind {motive : Typ → Prop}
    (var : ∀ n, motive (.var n))
    (explicitVar : ∀ s, motive (.explicitVar s))
    (intVar : ∀ n s, motive (.intVar n s))
    (floatVar : ∀ n, motive (.floatVar n))
    (recordVar : ∀ n fs, (∀ f ∈ fs, motive f.2) → motive (.recordVar n fs))
    (unit : motive .unit)
    (never : motive .never)
    (record : ∀ fs, (∀ f ∈ fs, motive f.2) → motive (.record fs))
    (function : ∀ ps r, (∀ p ∈ ps, motive p) → motive r → motive (.function ps r))
    (name : ∀ n as, (∀ a ∈ as, motive a) → motive (.name n as)) : ∀ t, motive t := fun t =>
  Typ.rec (motive_1 := motive) (motive_2 := fun fs => ∀ f ∈ fs, motive f.2)
    (motive_3 := fun ts => ∀ t ∈ ts, motive t) (motive_4 := fun f => motive f.2)
    var explicitVar intVar floatVar recordVar unit never record function name
    (fun _ h => nomatch h)
    (fun _ _ ih ihs f hf => by
      rcases List.mem_cons.mp hf with rfl | hf
      · exact ih
      · exact ihs f hf)
    (fun _ h => nomatch h)
    (fun _ _ ih ihs t ht => by
      rcases List.mem_cons.mp ht with rfl | ht
      · exact ih
      · exact ihs t ht)
    (fun _ _ ih => ih) t

/-! ### Equality of types (derived `PartialEq`) -/

mutual
def Typ.beq : Typ → Typ → Bool
  | .var n, .var m => n == m
  | .explicitVar s, .explicitVar t => s == t
  | .intVar n s, .intVar m t => n == m && decide (s = t)
  | .floatVar n, .floatVar m => n == m
  | .recordVar n fs, .recordVar m gs => n == m && Typ.beqFields fs gs
  | .unit, .unit => true
  | .never, .never => true
  | .record fs, .record gs => Typ.beqFields fs gs
  | .function ps r, .function qs s => Typ.beqList ps qs && Typ.beq r s
  | .name n as, .name m bs => decide (n = m) && Typ.beqList as bs
  | _, _ => false

def Typ.beqList : List Typ → List Typ → Bool
  | [], [] => true
  | a :: as, b :: bs => Typ.beq a b && Typ.beqList as bs
  | _, _ => false

def Typ.beqFields : List (Meta Identifier × Typ) → List (Meta Identifier × Typ) → Bool
  | [], [] => true
  | (n, a) :: as, (m, b) :: bs => decide (n = m) && Typ.beq a b && Typ.beqFields as bs
  | _, _ => false
end

mutual
theorem Typ.beq_iff : ∀ a b : Typ, Typ.beq a b = true ↔ a = b
  | .var _, b => by cases b <;> simp [Typ.beq]
  | .explicitVar _, b => by cases b <;> simp [Typ.beq]
  | .intVar _ _, b => by cases b <;> simp [Typ.beq]
  | .floatVar _, b => by cases b <;> simp [Typ.beq]
  | .recordVar _ fs, b => by cases b <;> simp [Typ.beq, Typ.beqFields_iff fs]
  | .unit, b => by cases b <;> simp [Typ.beq]
  | .never, b => by cases b <;> simp [Typ.beq]
  | .record fs, b => by cases b <;> simp [Typ.beq, Typ.beqFields_iff fs]
  | .function ps r, b => by cases b <;> simp [Typ.beq, Typ.beqList_iff ps, Typ.beq_iff r]
  | .name _ as, b => by cases b <;> simp [Typ.beq, Typ.beqList_iff as]

theorem Typ.beqList_iff : ∀ as bs : List Typ, Typ.beqList as bs = true ↔ as = bs
  | [], bs => by cases bs <;> simp [Typ.beqList]
  | a :: as, bs => by cases bs <;> simp [Typ.beqList, Typ.beq_iff a, Typ.beqList_iff as]

theorem Typ.beqFields_iff : ∀ as bs : List (Meta Identifier × Typ),
    Typ.beqFields as bs = true ↔ as = bs
  | [], bs => by cases bs <;> simp [Typ.beqFields]
  | (_, a) :: as, bs => by
    cases bs with
    | nil => simp [Typ.beqFields]
    | cons b bs => simp [Typ.beqFields, Typ.beq_iff a, Typ.beqFields_iff as, Prod.ext_iff]
end

instance : DecidableEq Typ := fun a b => decidable_of_iff _ (Typ.beq_iff a b)

/-- The index that `Type::Var | IntVar | FloatVar | RecordVar` patterns bind. -/
def Typ.varIndex : Typ → Option ℕ
  | .var n => some n
  | .intVar n _ => some n
  | .floatVar n => some n
  | .recordVar n _ => some n
  | _ => none

/-! ### Named types -/

structure TypeName where
  name : ResolvedName
  arguments : List Typ
  deriving DecidableEq, Repr

structure EnumVariant where
  name : Identifier
  fields : List Typ
  deriving DecidableEq, Repr

inductive TypeDefinition where
  | enum (name : TypeName) (variants : List EnumVariant)
  | record (name : TypeName) (fields : Fields)
  | runtime (name : ResolvedName) (typeId : ℕ)
  | primitive (p : Primitive)
  | list (name : TypeName)
  deriving DecidableEq, Repr

def TypeDefinition.isSignedInt : TypeDefinition → Bool
  | .primitive (.int .signed _) => true
  | _ => false

def TypeDefinition.isInt : TypeDefinition → Bool
  | .primitive (.int _ _) => true
  | _ => false

def TypeDefinition.isFloat : TypeDefinition → Bool
  | .primitive (.float _) => true
  | _ => false

def TypeDefinition.isList : TypeDefinition → Bool
  | .list _ => true
  | _ => false

/-! ### Substitution -/

mutual
/-- `Type::substitute`. Function types are left alone, as in the source. -/
def Typ.substitute : Typ → Typ → Typ → Typ
  | .recordVar n fs, src, dst =>
    if .recordVar n fs = src then dst else .recordVar n (Typ.substituteFields fs src dst)
  | .record fs, src, dst =>
    if .record fs = src then dst else .record (Typ.substituteFields fs src dst)
  | .name n as, src, dst =>
    if .name n as = src then dst else .name n (Typ.substituteList as src dst)
  | .var n, src, dst => if .var n = src then dst else .var n
  | .explicitVar s, src, dst => if .explicitVar s = src then dst else .explicitVar s
  | .intVar n s, src, dst => if .intVar n s = src then dst else .intVar n s
  | .floatVar n, src, dst => if .floatVar n = src then dst else .floatVar n
  | .unit, src, dst => if .unit = src then dst else .unit
  | .never, src, dst => if .never = src then dst else .never
  | .function ps r, src, dst => if .function ps r = src then dst else .function ps r
termination_by structural t => t

def Typ.substituteList : List Typ → Typ → Typ → List Typ
  | [], _, _ => []
  | t :: ts, src, dst => Typ.substitute t src dst :: Typ.substituteList ts src dst
termination_by structural t => t

def Typ.substituteFields : List (Meta Identifier × Typ) → Typ → Typ →
    List (Meta Identifier × Typ)
  | [], _, _ => []
  | (n, t) :: fs, src, dst => (n, Typ.substitute t src dst) :: Typ.substituteFields fs src dst
termination_by structural t => t
end

/-- `Type::substitute_many`: one substitution after the other. -/
def Typ.substituteMany (t : Typ) (subs : List (Typ × Typ)) : Typ :=
  subs.foldl (fun me p => me.substitute p.1 p.2) t

def EnumVariant.substituteMany (v : EnumVariant) (subs : List (Typ × Typ)) : EnumVariant :=
  ⟨v.name, v.fields.map fun t => t.substituteMany subs⟩

/-! ### Declarations -/

/-- `TypeDefinition::type_name`, the arguments only. -/
def TypeDefinition.arguments : TypeDefinition → List Typ
  | .enum tn _ => tn.arguments
  | .record tn _ => tn.arguments
  | .list tn => tn.arguments
  | .runtime _ _ => []
  | .primitive _ => []

/-- `TypeDefinition::record_fields`: the fields of a record definition at the given
type arguments. The outer `none` is the failed assertion on the number of arguments. -/
def TypeDefinition.recordFields (d : TypeDefinition) (typeArgs : List Typ) :
    Option (Option Fields) :=
  match d with
  | .record tn fields =>
    if tn.arguments.length = typeArgs.length then
      some (some (fields.map fun f => (f.1, f.2.substituteMany (tn.arguments.zip typeArgs))))
    else none
  | _ => some none

/-- `TypeInfo::types`, which holds the same definitions as the scope graph. -/
abbrev TypeMap := List (ResolvedName × TypeDefinition)

/-- `TypeInfo::resolve_type_name`; `none` is the `ice!`. -/
def TypeMap.resolveTypeName (types : TypeMap) (name : ResolvedName) : Option TypeDefinition :=
  types.lookup name

/-- The types of the fields of a definition. -/
def TypeDefinition.fieldTypes : TypeDefinition → List Typ
  | .enum _ variants => variants.flatMap EnumVariant.fields
  | .record _ fields => fields.map Prod.snd
  | _ => []

/-- The type parameters of a definition. -/
def TypeDefinition.params (d : TypeDefinition) : List Identifier :=
  d.arguments.filterMap fun
    | .explicitVar s => some s
    | _ => none

mutual
/-- The types that the checker works with: names are declared and have as many
arguments as their definition has parameters, and explicit variables are among `ps`.
At `bound = some k` type variables below `k` and functions are allowed; at `none` there
are neither, as in the types that `evaluate_type_expr` gives. -/
def Typ.wellFormed (types : TypeMap) (bound : Option ℕ) (ps : List Identifier) : Typ → Bool
  | .var n => bound.any fun k => decide (n < k)
  | .explicitVar s => decide (s ∈ ps)
  | .intVar n _ => bound.any fun k => decide (n < k)
  | .floatVar n => bound.any fun k => decide (n < k)
  | .recordVar n fs =>
    (bound.any fun k => decide (n < k)) && Typ.wellFormedFields types bound ps fs
  | .unit => true
  | .never => true
  | .record fs => Typ.wellFormedFields types bound ps fs
  | .function qs r =>
    bound.isSome && Typ.wellFormedList types bound ps qs && Typ.wellFormed types bound ps r
  | .name n as =>
    match types.resolveTypeName n with
    | some d =>
      decide (d.arguments.length = as.length) && Typ.wellFormedList types bound ps as
    | none => false

def Typ.wellFormedList (types : TypeMap) (bound : Option ℕ) (ps : List Identifier) :
    List Typ → Bool
  | [] => true
  | t :: ts => Typ.wellFormed types bound ps t && Typ.wellFormedList types bound ps ts

def Typ.wellFormedFields (types : TypeMap) (bound : Option ℕ) (ps : List Identifier) :
    List (Meta Identifier × Typ) → Bool
  | [] => true
  | (_, t) :: fs => Typ.wellFormed types bound ps t && Typ.wellFormedFields types bound ps fs
end

section
variable {types : TypeMap} {bound : Option ℕ} {ps : List Identifier}

theorem Typ.wellFormedList_iff {ts : List Typ} :
    Typ.wellFormedList types bound ps ts = true ↔ ∀ t ∈ ts, t.wellFormed types bound ps = true := by
  induction ts with
  | nil => exact iff_of_true rfl (List.forall_mem_nil _)
  | cons t ts ih =>
    rw [List.forall_mem_cons, ← ih]
    exact Bool.and_eq_true_iff

theorem Typ.wellFormedFields_iff {fs : Fields} :
    Typ.wellFormedFields types bound ps fs = true ↔
      ∀ f ∈ fs, f.2.wellFormed types bound ps = true := by
  induction fs with
  | nil => exact iff_of_true rfl (List.forall_mem_nil _)
  | cons f fs ih =>
    rw [List.forall_mem_cons, ← ih]
    exact Bool.and_eq_true_iff

theorem Typ.wellFormed_name {n : ResolvedName} {as : List Typ} :
    (Typ.name n as).wellFormed types bound ps = true ↔
      ∃ d, types.resolveTypeName n = some d ∧ d.arguments.length = as.length ∧
        ∀ a ∈ as, a.wellFormed types bound ps = true := by
  cases h : types.resolveTypeName n <;> simp [Typ.wellFormed, h, Typ.wellFormedList_iff]

theorem Typ.wellFormed_record {fs : Fields} :
    (Typ.record fs).wellFormed types bound ps = true ↔
      ∀ f ∈ fs, f.2.wellFormed types bound ps = true := Typ.wellFormedFields_iff

theorem Typ.wellFormed_recordVar {k n : ℕ} {fs : Fields} :
    (Typ.recordVar n fs).wellFormed types (some k) ps = true ↔
      n < k ∧ ∀ f ∈ fs, f.2.wellFormed types (some k) ps = true :=
  Bool.and_eq_true_iff.trans (and_congr decide_eq_true_iff Typ.wellFormedFields_iff)

theorem Typ.wellFormed_function {k : ℕ} {qs : List Typ} {r : Typ} :
    (Typ.function qs r).wellFormed types (some k) ps = true ↔
      (∀ q ∈ qs, q.wellFormed types (some k) ps = true) ∧
        r.wellFormed types (some k) ps = true :=
  Bool.and_eq_true_iff.trans (and_congr_left' Typ.wellFormedList_iff)

/-- More variables and more parameters keep a type well formed. -/
theorem Typ.wellFormed_mono {bound' : Option ℕ} {ps' : List Identifier}
    (hb : ∀ k, bound = some k → ∃ k', bound' = some k' ∧ k ≤ k') (hp : ∀ p ∈ ps, p ∈ ps')
    {t : Typ} (h : t.wellFormed types bound ps = true) :
    t.wellFormed types bound' ps' = true := by
  have hvar : ∀ n : ℕ, (bound.any fun k => decide (n < k)) = true →
      (bound'.any fun k => decide (n < k)) = true := by
    intro n hn
    cases hbd : bound with
    | none => simp [hbd] at hn
    | some k =>
      obtain ⟨k', hk', hle⟩ := hb k hbd
      simp only [hbd, hk', Option.any_some, decide_eq_true_eq] at hn ⊢
      omega
  induction t with
  | var n => exact hvar n h
  | explicitVar s => simp only [Typ.wellFormed, decide_eq_true_eq] at h ⊢; exact hp s h
  | intVar n s => exact hvar n h
  | floatVar n => exact hvar n h
  | recordVar n fs ih =>
    simp only [Typ.wellFormed, Bool.and_eq_true, Typ.wellFormedFields_iff] at h ⊢
    exact ⟨hvar n h.1, fun f hf => ih f hf (h.2 f hf)⟩
  | unit => rfl
  | never => rfl
  | record fs ih =>
    rw [Typ.wellFormed_record] at h ⊢
    exact fun f hf => ih f hf (h f hf)
  | function qs r ihq ihr =>
    simp only [Typ.wellFormed, Bool.and_eq_true, Typ.wellFormedList_iff] at h ⊢
    obtain ⟨⟨hs, hq⟩, hr⟩ := h
    obtain ⟨k, hk⟩ := Option.isSome_iff_exists.mp hs
    obtain ⟨k', hk', -⟩ := hb k hk
    exact ⟨⟨by simp [hk'], fun q hm => ihq q hm (hq q hm)⟩, ihr hr⟩
  | name n as ih =>
    rw [Typ.wellFormed_name] at h ⊢
    obtain ⟨d, hd, hlen, ha⟩ := h
    exact ⟨d, hd, hlen, fun a hm => ih a hm (ha a hm)⟩

end

/-- What `declare_types` guarantees of a definition: the parameters are distinct
explicit variables and the fields are type expressions over them; a list has its one
parameter. -/
structure TypeDefinition.WellFormed (types : TypeMap) (d : TypeDefinition) : Prop where
  params : d.arguments = d.params.map .explicitVar
  nodup : d.params.Nodup
  fields : ∀ t ∈ d.fieldTypes, t.wellFormed types none d.params = true
  list : d.isList = true → d.arguments.length = 1

instance (types : TypeMap) (d : TypeDefinition) : Decidable (d.WellFormed types) :=
  decidable_of_iff (d.arguments = d.params.map .explicitVar ∧ d.params.Nodup ∧
      (∀ t ∈ d.fieldTypes, t.wellFormed types none d.params = true) ∧
      (d.isList = true → d.arguments.length = 1))
    ⟨fun ⟨a, b, c, e⟩ => ⟨a, b, c, e⟩, fun ⟨a, b, c, e⟩ => ⟨a, b, c, e⟩⟩

/-- The declared types of a program. -/
structure Declarations where
  types : TypeMap
  wellFormed : ∀ p ∈ types, p.2.WellFormed types

theorem TypeMap.mem_of_resolveTypeName {types : TypeMap} {n : ResolvedName}
    {d : TypeDefinition} (h : types.resolveTypeName n = some d) : (n, d) ∈ types := by
  simp only [TypeMap.resolveTypeName] at h
  induction types with
  | nil => simp at h
  | cons p ps ih =>
    obtain ⟨m, e⟩ := p
    by_cases hnm : n = m
    · subst hnm
      simp only [List.lookup_cons_self, Option.some.injEq] at h
      simp [h]
    · have hb : (n == m) = false := by simpa using hnm
      simp only [List.lookup_cons, hb] at h
      exact List.mem_cons_of_mem _ (ih h)

theorem Declarations.wf (D : Declarations) {n : ResolvedName} {d : TypeDefinition}
    (h : D.types.resolveTypeName n = some d) : d.WellFormed D.types :=
  D.wellFormed _ (TypeMap.mem_of_resolveTypeName h)

/-! ### Substitution for the parameters of a definition -/

/-- The pairs that `zip` makes of the parameters `ps` and the arguments. -/
def paramSubs (ps : List Identifier) (args : List Typ) : List (Typ × Typ) :=
  (ps.map Typ.explicitVar).zip args

theorem TypeDefinition.WellFormed.subs {types : TypeMap} {d : TypeDefinition}
    (h : d.WellFormed types) (args : List Typ) :
    d.arguments.zip args = paramSubs d.params args := by
  rw [paramSubs, ← h.params]

theorem Typ.substituteList_eq_map (src dst : Typ) (ts : List Typ) :
    Typ.substituteList ts src dst = ts.map fun t => t.substitute src dst := by
  induction ts with
  | nil => rfl
  | cons t ts ih => exact congrArg (t.substitute src dst :: ·) ih

theorem Typ.substituteFields_eq_map (src dst : Typ) (fs : Fields) :
    Typ.substituteFields fs src dst = fs.map fun f => (f.1, f.2.substitute src dst) := by
  induction fs with
  | nil => rfl
  | cons f fs ih => exact congrArg ((f.1, f.2.substitute src dst) :: ·) ih

section
variable (ps : List Identifier) (args : List Typ)

/-- Substitution for parameters goes through every constructor but functions. -/
theorem paramSubs_cons (p : Identifier) (a : Typ) (t : Typ) :
    t.substituteMany (paramSubs (p :: ps) (a :: args)) =
      (t.substitute (.explicitVar p) a).substituteMany (paramSubs ps args) := rfl

theorem paramSubs_nil_left (t : Typ) : t.substituteMany (paramSubs [] args) = t := rfl

theorem paramSubs_nil_right (t : Typ) : t.substituteMany (paramSubs ps []) = t := by
  simp [paramSubs, Typ.substituteMany]

theorem substituteMany_record (fs : Fields) :
    (Typ.record fs).substituteMany (paramSubs ps args) =
      .record (fs.map fun f => (f.1, f.2.substituteMany (paramSubs ps args))) := by
  induction ps generalizing args fs with
  | nil => simp [paramSubs_nil_left]
  | cons p ps ih =>
    cases args with
    | nil => simp [paramSubs_nil_right]
    | cons a args =>
      simp only [paramSubs_cons]
      rw [show (Typ.record fs).substitute (.explicitVar p) a =
        .record (fs.map fun f => (f.1, f.2.substitute (.explicitVar p) a)) by
          simp [Typ.substitute, Typ.substituteFields_eq_map], ih, List.map_map]
      rfl

theorem substituteMany_name (n : ResolvedName) (as : List Typ) :
    (Typ.name n as).substituteMany (paramSubs ps args) =
      .name n (as.map fun t => t.substituteMany (paramSubs ps args)) := by
  induction ps generalizing args as with
  | nil => simp [paramSubs_nil_left]
  | cons p ps ih =>
    cases args with
    | nil => simp [paramSubs_nil_right]
    | cons a args =>
      simp only [paramSubs_cons]
      rw [show (Typ.name n as).substitute (.explicitVar p) a =
        .name n (as.map fun t => t.substitute (.explicitVar p) a) by
          simp [Typ.substitute, Typ.substituteList_eq_map], ih, List.map_map]
      rfl

/-- A type without explicit variables is left alone. -/
theorem substitute_of_wellFormed {types : TypeMap} {bound : Option ℕ} {p : Identifier}
    {a t : Typ} (h : t.wellFormed types bound [] = true) :
    t.substitute (.explicitVar p) a = t := by
  induction t with
  | var n => simp [Typ.substitute]
  | explicitVar s => simp [Typ.wellFormed] at h
  | intVar n s => simp [Typ.substitute]
  | floatVar n => simp [Typ.substitute]
  | unit => simp [Typ.substitute]
  | never => simp [Typ.substitute]
  | recordVar n fs ih =>
    simp only [Typ.wellFormed, Bool.and_eq_true, Typ.wellFormedFields_iff] at h
    simp only [Typ.substitute, reduceCtorEq, if_false, Typ.substituteFields_eq_map]
    rw [List.map_congr_left (fun f hf => by rw [ih f hf (h.2 f hf)]), List.map_id']
  | record fs ih =>
    rw [Typ.wellFormed_record] at h
    simp only [Typ.substitute, reduceCtorEq, if_false, Typ.substituteFields_eq_map]
    rw [List.map_congr_left (fun f hf => by rw [ih f hf (h f hf)]), List.map_id']
  | function qs r _ _ => simp [Typ.substitute]
  | name n as ih =>
    obtain ⟨d, -, -, ha⟩ := Typ.wellFormed_name.mp h
    simp only [Typ.substitute, reduceCtorEq, if_false, Typ.substituteList_eq_map]
    rw [List.map_congr_left (fun x hx => ih x hx (ha x hx)), List.map_id']

theorem substituteMany_of_wellFormed {types : TypeMap} {bound : Option ℕ} {t : Typ}
    (h : t.wellFormed types bound [] = true) : t.substituteMany (paramSubs ps args) = t := by
  induction ps generalizing args with
  | nil => rfl
  | cons p ps ih =>
    cases args with
    | nil => simp [paramSubs_nil_right]
    | cons a args => rw [paramSubs_cons, substitute_of_wellFormed h, ih]

theorem substituteMany_unit : Typ.unit.substituteMany (paramSubs ps args) = .unit :=
  substituteMany_of_wellFormed ps args (rfl : Typ.unit.wellFormed [] none [] = true)

theorem substituteMany_never : Typ.never.substituteMany (paramSubs ps args) = .never :=
  substituteMany_of_wellFormed ps args (rfl : Typ.never.wellFormed [] none [] = true)

variable {ps args}

/-- A parameter becomes its argument. -/
theorem substituteMany_explicitVar {types : TypeMap} {bound : Option ℕ} {s : Identifier}
    (hs : s ∈ ps) (hlen : ps.length = args.length)
    (hargs : ∀ a ∈ args, a.wellFormed types bound [] = true) :
    ∃ (i : ℕ) (a : Typ), ps[i]? = some s ∧ args[i]? = some a ∧
      (Typ.explicitVar s).substituteMany (paramSubs ps args) = a := by
  induction ps generalizing args with
  | nil => cases hs
  | cons p ps ih =>
    cases args with
    | nil => simp at hlen
    | cons a args =>
      by_cases hps : p = s
      · subst hps
        refine ⟨0, a, rfl, rfl, ?_⟩
        rw [paramSubs_cons, show (Typ.explicitVar p).substitute (.explicitVar p) a = a by
          simp [Typ.substitute]]
        exact substituteMany_of_wellFormed ps args (hargs a (List.mem_cons_self ..))
      · have hmem : s ∈ ps := by
          rcases List.mem_cons.mp hs with h | h
          · exact absurd h.symm hps
          · exact h
        obtain ⟨i, b, hi, hb, hsub⟩ := ih hmem (by simpa using hlen)
          (fun x hx => hargs x (List.mem_cons_of_mem _ hx))
        refine ⟨i + 1, b, by simpa using hi, by simpa using hb, ?_⟩
        rw [paramSubs_cons, show (Typ.explicitVar s).substitute (.explicitVar p) a =
          .explicitVar s by simp [Typ.substitute, Ne.symm hps]]
        exact hsub

/-- The argument for a parameter, by its position. -/
theorem substituteMany_explicitVar_at {types : TypeMap} {bound : Option ℕ}
    (hnodup : ps.Nodup) {s : Identifier} {i : ℕ}
    (hi : ps[i]? = some s) (hlen : ps.length = args.length)
    (hargs : ∀ a ∈ args, a.wellFormed types bound [] = true) :
    args[i]? = some ((Typ.explicitVar s).substituteMany (paramSubs ps args)) := by
  obtain ⟨j, a, hj, ha, hsub⟩ :=
    substituteMany_explicitVar (List.mem_of_getElem? hi) hlen hargs
  obtain ⟨hi', hgeti⟩ := List.getElem?_eq_some_iff.mp hi
  obtain ⟨hj', hgetj⟩ := List.getElem?_eq_some_iff.mp hj
  obtain rfl : i = j := (hnodup.getElem_inj_iff).mp (hgeti.trans hgetj.symm)
  rw [ha, hsub]

/-- A field of a definition at well-formed arguments is well formed. -/
theorem wellFormed_substituteMany {types : TypeMap} {bound : Option ℕ} {t : Typ}
    (h : t.wellFormed types none ps = true) (hlen : ps.length = args.length)
    (hargs : ∀ a ∈ args, a.wellFormed types bound [] = true) :
    (t.substituteMany (paramSubs ps args)).wellFormed types bound [] = true := by
  induction t with
  | var n => simp [Typ.wellFormed] at h
  | intVar n s => simp [Typ.wellFormed] at h
  | floatVar n => simp [Typ.wellFormed] at h
  | recordVar n fs _ => simp [Typ.wellFormed] at h
  | function qs r _ _ => simp [Typ.wellFormed] at h
  | unit => rw [substituteMany_unit]; rfl
  | never => rw [substituteMany_never]; rfl
  | explicitVar s =>
    simp only [Typ.wellFormed, decide_eq_true_eq] at h
    obtain ⟨i, a, -, ha, hsub⟩ := substituteMany_explicitVar h hlen hargs
    rw [hsub]
    exact hargs a (List.mem_of_getElem? ha)
  | record fs ih =>
    rw [Typ.wellFormed_record] at h
    rw [substituteMany_record, Typ.wellFormed_record]
    intro f hf
    obtain ⟨g, hg, rfl⟩ := List.mem_map.mp hf
    exact ih g hg (h g hg)
  | name n as ih =>
    obtain ⟨d, hd, hl, ha⟩ := Typ.wellFormed_name.mp h
    rw [substituteMany_name, Typ.wellFormed_name]
    refine ⟨d, hd, by simpa using hl, fun b hb => ?_⟩
    obtain ⟨c, hc, rfl⟩ := List.mem_map.mp hb
    exact ih c hc (ha c hc)

end

end TypeChecker

end Roto
