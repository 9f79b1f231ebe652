import RotoCompiler.Parser.Identifiers

/-!
# Names of registered items (runtime/mod.rs, check_name)

A name is lexed like a script, so white space and comments around it are skipped as well.
-/

namespace Roto.Runtime
open Lib Roto.Parser
open String (utf8Len)

structure Location where
  file : String
  line : ℕ
  column : ℕ
  deriving DecidableEq, Repr

structure RegistrationError where
  message : String
  location : Location
  deriving DecidableEq, Repr

section
variable (u : Unicode) (debug : Text → String)

/-- `check_name_internal`, where `debug` prints the name; `none` is a panic of the lexer. -/
def checkNameInternal (name : Text) : Option (Except String Unit) :=
  match next u (Lexer.new name) with
  | none => none
  | some (some (some tok, _), lexer) =>
    match next u lexer with
    | none => none
    | some (some _, _) =>
      some (.error s!"Name {debug name} contains multiple tokens and is not a valid Roto identifier")
    | some (none, _) =>
      match tok with
      | .ident _ => some (.ok ())
      | .keyword _ =>
        some (.error s!"Name {debug name} is a keyword in Roto and therefore not a valid identifier")
      | _ => some (.error s!"Name {debug name} is not a valid Roto identifier.")
  | some _ => some (.error s!"Name {debug name} is not a valid Roto identifier")

def checkName (location : Location) (name : Text) : Option (Except RegistrationError Unit) :=
  (checkNameInternal u debug name).map fun r => r.mapError fun e => ⟨e, location⟩

end

/-- An identifier with white space or comments in front of it or behind it. -/
def Surrounded (u : Unicode) (s : Text) : Prop :=
  ∃ x r, skipLoop false s = x ++ r ∧ IsIdentifier u x ∧ skipLoop false r = [] ∧ s ≠ x

section
variable {u : Unicode} {debug : Text → String} {location : Location} {s : Text}

theorem checkName_ok_iff :
    checkName u debug location s = some (.ok ()) ↔ checkNameInternal u debug s = some (.ok ()) := by
  unfold checkName
  cases checkNameInternal u debug s with
  | none => simp
  | some r => cases r <;> simp [Except.mapError]

theorem checkNameInternal_ok_iff :
    checkNameInternal u debug s = some (.ok ()) ↔
      ∃ x span l l', next u (Lexer.new s) = some (some (some (.ident x), span), l) ∧
        next u l = some (none, l') := by
  unfold checkNameInternal
  constructor
  · intro h
    split at h
    · cases h
    · next tok span l hnext =>
      split at h
      · cases h
      · cases h
      · next l' hnone =>
        split at h
        · next x => exact ⟨x, span, l, l', hnext, hnone⟩
        · cases h
        · cases h
    · cases h
  · rintro ⟨x, span, l, l', hnext, hnone⟩
    simp only [hnext, hnone]

/-- What is accepted is an identifier after what the lexer skips, and nothing but more of
this is left. -/
theorem checkName_accepts_iff (hu : u.Documented) :
    checkName u debug location s = some (.ok ()) ↔
      ∃ x r, skipLoop false s = x ++ r ∧ IsIdentifier u x ∧ skipLoop false r = [] := by
  rw [checkName_ok_iff, checkNameInternal_ok_iff]
  constructor
  · rintro ⟨x, span, l, l', hnext, hnone⟩
    obtain ⟨c, cs, r, rfl, hs, hword, -, rfl⟩ := (next_ident_iff hu).mp hnext
    have hrest := next_none_iff.mp ⟨l', hnone⟩
    have halone := (wordBefore_iff hu (ends_of_skipped hrest)).mp hword
    exact ⟨c :: cs, r, hs, (isIdentifier_iff hu).mpr ⟨c, cs, rfl, halone⟩, hrest⟩
  · rintro ⟨x, r, hs, hx, hrest⟩
    obtain ⟨c, cs, rfl, halone⟩ := (isIdentifier_iff hu).mp hx
    have hword := (wordBefore_iff hu (ends_of_skipped hrest)).mpr halone
    have hnext := (next_ident_iff (s := s) (n := utf8Len s) hu).mpr
      ⟨c, cs, r, rfl, hs, hword, rfl, rfl⟩
    obtain ⟨l', hnone⟩ := next_none_iff.mpr hrest
    exact ⟨_, _, _, l', hnext, hnone⟩

/-- An identifier does not go on with what the lexer skips. -/
theorem not_identifier_append (hu : u.Documented) {x r : Text} (hx : IsIdentifier u x)
    (hr : skipLoop false r = []) (hne : r ≠ []) : ¬ IsIdentifier u (x ++ r) := by
  intro h
  obtain ⟨c, cs, rfl, -⟩ := (isIdentifier_iff hu).mp hx
  obtain ⟨c', cs', heq, hword⟩ := (isIdentifier_iff hu).mp h
  obtain ⟨rfl, rfl⟩ := List.cons.inj heq
  have hends := ends_of_skipped hr
  have hstop : (eatWhile u.isXidContinue (cs ++ r ++ [])).2 = [] := hword.stop
  rw [List.append_nil, eatWhile_append (fun d => hends.not_continue hu (c := d))] at hstop
  exact hne (List.append_eq_nil_iff.mp hstop).2

/-- The names that are accepted are the identifiers, but for those with white space or
comments around them, which are accepted too. -/
theorem checkName_identifier_iff (u : Unicode) (hu : u.Documented) (debug : Text → String)
    (location : Location) (s : Text) :
    (checkName u debug location s = some (.ok ()) ↔ IsIdentifier u s) ↔ ¬ Surrounded u s := by
  rw [checkName_accepts_iff hu]
  have hself : IsIdentifier u s → skipLoop false s = s := by
    intro h
    obtain ⟨c, cs, rfl, hword⟩ := (isIdentifier_iff hu).mp h
    exact skipLoop_word (hword.startsWord hu) cs
  constructor
  · rintro h ⟨x, r, hs, hx, hr, hne⟩
    have hident := h.mp ⟨x, r, hs, hx, hr⟩
    rw [hself hident] at hs
    have hrest : r ≠ [] := by
      rintro rfl
      rw [List.append_nil] at hs
      exact hne hs
    rw [hs] at hident
    exact not_identifier_append hu hx hr hrest hident
  · intro h
    constructor
    · rintro ⟨x, r, hs, hx, hr⟩
      by_contra hnot
      refine h ⟨x, r, hs, hx, hr, ?_⟩
      rintro rfl
      exact hnot hx
    · intro hident
      refine ⟨s, [], ?_, hident, rfl⟩
      rw [hself hident, List.append_nil]

end

theorem foo_accepted :
    (checkName letters String.ofList ⟨"", 0, 0⟩ "foo".toList = some (.ok ()) ↔
      IsIdentifier letters "foo".toList) ↔ ¬ Surrounded letters "foo".toList :=
  checkName_identifier_iff letters letters_documented _ _ _

/-- The names ` foo` and `foo//` are accepted, but they are not identifiers. -/
theorem surrounded_accepted :
    (checkName letters String.ofList ⟨"", 0, 0⟩ " foo".toList = some (.ok ()) ∧
      ¬ IsIdentifier letters " foo".toList) ∧
    (checkName letters String.ofList ⟨"", 0, 0⟩ "foo//".toList = some (.ok ()) ∧
      ¬ IsIdentifier letters "foo//".toList) := by
  decide

end Roto.Runtime
