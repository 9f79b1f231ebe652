import RotoCompiler.TypeChecker.Types

/-!
# Types of the MIR (mir/ty.rs)

Concrete types only: no variables, and no names of user types. The source interns
them in a pool, and two references from one pool are equal exactly when the types are,
so the type itself stands for its reference here.
-/

namespace Roto.Mir

inductive Ty where
  | unit
  | never
  | record (fields : List (Identifier × Ty))
  | enum (variants : List (Identifier × List Ty))
  | primitive (p : Primitive)
  | list (inner : Ty)
  | runtime (typeId : ℕ)
  deriving Repr

namespace Ty

def bool : Ty := .primitive .bool
def u8 : Ty := .primitive (.int .unsigned .i8)
def u64 : Ty := .primitive (.int .unsigned .i64)
def i32 : Ty := .primitive (.int .signed .i32)
def f64 : Ty := .primitive (.float .f64)
def string : Ty := .primitive .string

/-! ### Equality of types -/

mutual

def beq : Ty → Ty → Bool
  | .unit, .unit => true
  | .never, .never => true
  | .record fs, .record gs => beqFields fs gs
  | .enum vs, .enum ws => beqVariants vs ws
  | .primitive p, .primitive q => p = q
  | .list t, .list u => beq t u
  | .runtime n, .runtime m => n = m
  | _, _ => false

def beqFields : List (Identifier × Ty) → List (Identifier × Ty) → Bool
  | [], [] => true
  | (n, t) :: fs, (m, u) :: gs => n = m && beq t u && beqFields fs gs
  | _, _ => false

def beqTypes : List Ty → List Ty → Bool
  | [], [] => true
  | t :: ts, u :: us => beq t u && beqTypes ts us
  | _, _ => false

def beqVariants : List (Identifier × List Ty) → List (Identifier × List Ty) → Bool
  | [], [] => true
  | (n, ts) :: vs, (m, us) :: ws => n = m && beqTypes ts us && beqVariants vs ws
  | _, _ => false

end

mutual

theorem beq_iff : ∀ t u : Ty, beq t u = true ↔ t = u
  | .unit, u => by cases u <;> simp [beq]
  | .never, u => by cases u <;> simp [beq]
  | .record fs, u => by cases u <;> simp [beq, beqFields_iff fs]
  | .enum vs, u => by cases u <;> simp [beq, beqVariants_iff vs]
  | .primitive _, u => by cases u <;> simp [beq]
  | .list t, u => by cases u <;> simp [beq, beq_iff t]
  | .runtime _, u => by cases u <;> simp [beq]

theorem beqFields_iff : ∀ fs gs : List (Identifier × Ty), beqFields fs gs = true ↔ fs = gs
  | [], gs => by cases gs <;> simp [beqFields]
  | (_, _) :: _, [] => by simp [beqFields]
  | (_, t) :: fs, (_, _) :: _ => by simp [beqFields, beq_iff t, beqFields_iff fs]

theorem beqTypes_iff : ∀ ts us : List Ty, beqTypes ts us = true ↔ ts = us
  | [], us => by cases us <;> simp [beqTypes]
  | t :: ts, us => by cases us <;> simp [beqTypes, beq_iff t, beqTypes_iff ts]

theorem beqVariants_iff : ∀ vs ws : List (Identifier × List Ty),
    beqVariants vs ws = true ↔ vs = ws
  | [], ws => by cases ws <;> simp [beqVariants]
  | (_, _) :: _, [] => by simp [beqVariants]
  | (_, ts) :: vs, (_, _) :: _ => by simp [beqVariants, beqTypes_iff ts, beqVariants_iff vs]

end

instance : DecidableEq Ty := fun t u => decidable_of_iff _ (beq_iff t u)

/-! ### The size of a type -/

mutual

/-- The number of types in a type, itself among them. -/
def size : Ty → ℕ
  | .record fs => sizeFields fs + 1
  | .enum vs => sizeVariants vs + 1
  | .list t => t.size + 1
  | _ => 1

def sizeFields : List (Identifier × Ty) → ℕ
  | [] => 0
  | (_, t) :: fs => t.size + sizeFields fs

def sizeTypes : List Ty → ℕ
  | [] => 0
  | t :: ts => t.size + sizeTypes ts

def sizeVariants : List (Identifier × List Ty) → ℕ
  | [] => 0
  | (_, ts) :: vs => sizeTypes ts + sizeVariants vs

end

theorem sizeFields_eq (fs : List (Identifier × Ty)) :
    sizeFields fs = sizeTypes (fs.map (·.2)) := by
  induction fs with
  | nil => rfl
  | cons f fs ih => rw [sizeFields, List.map_cons, sizeTypes, ih]

theorem sizeTypes_eq (ts : List Ty) : sizeTypes ts = (ts.map size).sum := by
  induction ts with
  | nil => rfl
  | cons t ts ih => rw [sizeTypes, List.map_cons, List.sum_cons, ih]

theorem size_le {t : Ty} {ts : List Ty} (h : t ∈ ts) : t.size ≤ sizeTypes ts := by
  induction ts with
  | nil => cases h
  | cons u ts ih =>
    rw [sizeTypes]
    rcases List.mem_cons.mp h with heq | h
    · rw [heq]
      exact Nat.le_add_right _ _
    · exact Nat.le_trans (ih h) (Nat.le_add_left _ _)

end Ty

end Roto.Mir
