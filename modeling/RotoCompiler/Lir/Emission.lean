import RotoCompiler.Lir.Lowerer

/-!
# What the lowerer emits

The computations of the lowerer taken apart, and the calls of registered functions among
what they emit.
-/

namespace Roto.Lir
open Mir

variable {α β : Type} {rt : Rt}

/-! ### Computations of the lowerer -/

namespace Lower

theorem bind_some {m : Lower α} {k : α → Lower β} {s : Lowerer} {r : β × Lowerer}
    (h : (m >>= k) s = some r) : ∃ a s₁, m s = some (a, s₁) ∧ k a s₁ = some r := by
  obtain ⟨⟨a, s₁⟩, hm, hk⟩ := Option.bind_eq_some_iff.mp (show (m s).bind _ = some r from h)
  exact ⟨a, s₁, hm, hk⟩

theorem pure_some {a b : α} {s s' : Lowerer} (h : (pure a : Lower α) s = some (b, s')) :
    a = b ∧ s = s' :=
  Prod.mk.inj (Option.some.inj h)

theorem modify_some {f : Lowerer → Lowerer} {u : Unit} {s s' : Lowerer}
    (h : (modify f : Lower Unit) s = some (u, s')) : s' = f s :=
  (Prod.mk.inj (Option.some.inj h)).2.symm

theorem unwrap_some {x : Option α} {a : α} {s s' : Lowerer} (h : unwrap x s = some (a, s')) :
    x = some a ∧ s = s' := by
  obtain ⟨b, hx, hb⟩ := Option.bind_eq_some_iff.mp (show x.bind _ = some (a, s') from h)
  obtain ⟨rfl, rfl⟩ := Prod.mk.inj (Option.some.inj hb)
  exact ⟨hx, rfl⟩

theorem emit_some {i : Instruction} {u : Unit} {s s' : Lowerer} (h : emit i s = some (u, s')) :
    s' = { s with instructions := s.instructions ++ [i] } :=
  modify_some h

end Lower

/-! ### Calls of registered functions -/

/-- The call that an instruction is. -/
def Instruction.runtimeCall : Instruction → Option (ℕ × List Operand)
  | .callRuntime func args => some (func, args)
  | _ => none

/-- The calls of registered functions that have been emitted. -/
def Lowerer.runtimeCalls (s : Lowerer) : List (ℕ × List Operand) :=
  ((s.blocks.flatMap Block.instructions) ++ s.instructions).filterMap Instruction.runtimeCall

/-- A computation that calls no registered function. -/
def Quiet (m : Lower α) : Prop :=
  ∀ s a s', m s = some (a, s') →
    s'.runtimeCalls = s.runtimeCalls ∧ s'.runtimeFunctions = s.runtimeFunctions

namespace Quiet

theorem pure (a : α) : Quiet (Pure.pure a) := by
  intro s b s' h
  obtain ⟨-, rfl⟩ := Lower.pure_some h
  exact ⟨rfl, rfl⟩

theorem bind {m : Lower α} {k : α → Lower β} (hm : Quiet m) (hk : ∀ a, Quiet (k a)) :
    Quiet (m >>= k) := by
  intro s b s' h
  obtain ⟨a, s₁, h₁, h₂⟩ := Lower.bind_some h
  have hfirst := hm s a s₁ h₁
  have hsecond := hk a s₁ b s' h₂
  exact ⟨hsecond.1.trans hfirst.1, hsecond.2.trans hfirst.2⟩

theorem unwrap (x : Option α) : Quiet (unwrap x) := by
  intro s a s' h
  obtain ⟨-, rfl⟩ := Lower.unwrap_some h
  exact ⟨rfl, rfl⟩

theorem modify {f : Lowerer → Lowerer} (hcalls : ∀ s, (f s).runtimeCalls = s.runtimeCalls)
    (hfunctions : ∀ s, (f s).runtimeFunctions = s.runtimeFunctions) :
    Quiet (modify f : Lower Unit) := by
  intro s a s' h
  obtain rfl := Lower.modify_some h
  exact ⟨hcalls s, hfunctions s⟩

end Quiet

theorem runtimeCalls_emit (s : Lowerer) (i : Instruction) :
    Lowerer.runtimeCalls { s with instructions := s.instructions ++ [i] } =
      s.runtimeCalls ++ i.runtimeCall.toList := by
  unfold Lowerer.runtimeCalls
  rw [← List.append_assoc, List.filterMap_append]
  cases h : i.runtimeCall with
  | none => rw [List.filterMap_cons_none h, List.filterMap_nil, Option.toList_none]
  | some c => rw [List.filterMap_cons_some h, List.filterMap_nil, Option.toList_some]

theorem quiet_emit {i : Instruction} (h : i.runtimeCall = none) : Quiet (emit i) := by
  refine Quiet.modify (fun s => ?_) fun _ => rfl
  rw [runtimeCalls_emit, h, Option.toList_none, List.append_nil]

theorem quiet_newTmp (ty : IrType) : Quiet (newTmp ty) := by
  intro s a s' h
  obtain ⟨-, rfl⟩ := Prod.mk.inj (Option.some.inj h)
  exact ⟨rfl, rfl⟩

theorem quiet_newStackSlot (l : Layout) : Quiet (newStackSlot l) := by
  intro s a s' h
  obtain ⟨-, rfl⟩ := Prod.mk.inj (Option.some.inj h)
  exact ⟨rfl, rfl⟩

theorem quiet_offset (var : Var) (off : ℕ) : Quiet (offset var off) := by
  unfold offset
  split_ifs
  · exact .pure var
  · exact (quiet_newTmp .pointer).bind fun new => (quiet_emit rfl).bind fun _ => .pure new

theorem quiet_moveVal (dest : Location) (val : Operand) (ty : Ty) :
    Quiet (moveVal rt dest val ty) := by
  unfold moveVal
  split
  · exact .pure ()
  · split
    · exact quiet_emit rfl
    · refine (quiet_offset _ _).bind fun dest => ?_
      split
      · exact (Quiet.unwrap _).bind fun l => quiet_emit rfl
      · exact quiet_emit rfl
      · exact .pure ()

theorem quiet_functionAddress {needed : Bool} {name : FunName} {generate : Lowerer → Lowerer}
    (hcalls : ∀ s, (generate s).runtimeCalls = s.runtimeCalls)
    (hfunctions : ∀ s, (generate s).runtimeFunctions = s.runtimeFunctions) :
    Quiet (functionAddress needed name generate) := by
  unfold functionAddress
  split_ifs
  · exact .pure nullPtr
  · exact (quiet_newTmp .pointer).bind fun tmp => (quiet_emit rfl).bind fun _ =>
      (Quiet.modify hcalls hfunctions).bind fun _ => .pure _

theorem quiet_vtableField (base : Var) (val : Operand) (builder : LayoutBuilder) :
    Quiet (vtableField base val builder) :=
  (quiet_offset base _).bind fun _ => (quiet_emit rfl).bind fun _ => .pure _

theorem quiet_vtable (tyRef : Ty) : Quiet (vtable rt tyRef) := by
  refine (quiet_functionAddress ?_ ?_).bind fun _ => (quiet_functionAddress ?_ ?_).bind fun _ =>
    (quiet_functionAddress ?_ ?_).bind fun _ => (quiet_newStackSlot _).bind fun _ =>
    (quiet_vtableField _ _ _).bind fun _ => (quiet_vtableField _ _ _).bind fun _ =>
    (quiet_vtableField _ _ _).bind fun _ => (quiet_vtableField _ _ _).bind fun _ =>
    (quiet_vtableField _ _ _).bind fun _ => .pure _
  all_goals exact fun _ => rfl

theorem quiet_vtableArgs (i : ℕ) (vtables : List Ty) : Quiet (vtableArgs rt i vtables) := by
  induction vtables generalizing i with
  | nil => exact .pure []
  | cons tyRef vtables ih =>
    exact (quiet_vtable tyRef).bind fun _ => (ih (i + 1)).bind fun _ => .pure _

theorem quiet_runtimeArg (i : ℕ) (dynVal : Bool) (arg : Mir.Var) (ty : Ty) :
    Quiet (runtimeArg rt i dynVal arg ty) := by
  unfold runtimeArg
  split
  · split
    · exact .pure none
    · exact .pure _
  · split
    · exact .pure none
    · exact (quiet_newStackSlot _).bind fun _ => (quiet_moveVal _ _ _).bind fun _ => .pure _

theorem quiet_runtimeArgs (dynVals : List Bool) (tys : List Ty) (i : ℕ) (mirArgs : List Mir.Var) :
    Quiet (runtimeArgs rt dynVals tys i mirArgs) := by
  induction mirArgs generalizing i with
  | nil => exact .pure []
  | cons arg mirArgs ih =>
    exact (Quiet.unwrap _).bind fun ty => (Quiet.unwrap _).bind fun dynVal =>
      (quiet_runtimeArg i dynVal arg ty).bind fun _ => (ih (i + 1)).bind fun _ => .pure _

end Roto.Lir
