import RotoCompiler.TypeChecker.UnifyComplete
import RotoCompiler.TypeChecker.UnifySound

/-!
# Record types as atoms

Two anonymous record types are unified by the arm for equal types or not at all, so for
`unify_inner` they are constants. When it gives `Ok` and no record variable meets anything,
the store that it leaves gives each variable a type built of these constants, and types that
meet are the same over them: all records that meet are literally equal.
-/

namespace Roto.TypeChecker
open Relation UnionFind

mutual
/-- The type under an assignment, record types left as they stand. -/
def Typ.fill (τ : Assignment) : Typ → Typ
  | .var n => τ n
  | .intVar n _ => τ n
  | .floatVar n => τ n
  | .recordVar n _ => τ n
  | .explicitVar s => .explicitVar s
  | .unit => .unit
  | .never => .never
  | .record fs => .record fs
  | .function ps r => .function (Typ.fillList τ ps) (Typ.fill τ r)
  | .name n as => .name n (Typ.fillList τ as)

def Typ.fillList (τ : Assignment) : List Typ → List Typ
  | [] => []
  | t :: ts => Typ.fill τ t :: Typ.fillList τ ts
end

section
variable {D : Declarations} {c : Call} {uf uf' : UnionFind} {σ τ : Assignment} {js : List Job}

theorem fillList_eq_map (τ : Assignment) (ts : List Typ) :
    Typ.fillList τ ts = ts.map (Typ.fill τ) := by
  induction ts with
  | nil => rfl
  | cons t ts ih => simp [Typ.fillList, ih]

theorem fill_of_varIndex {t : Typ} {i : ℕ} (h : t.varIndex = some i) : t.fill τ = τ i := by
  cases t <;> simp_all [Typ.varIndex, Typ.fill]

/-- `τ` agrees with the store, and stands for `Never` where the solution `σ` does. -/
structure Fills (uf : UnionFind) (σ τ : Assignment) : Prop where
  bound : ∀ (i : ℕ) (e : Typ), uf.inner[i]? = some e → τ i = e.fill τ
  never : ∀ i, (σ i).canon = .never → τ i = .never

theorem Fills.root (h : Fills uf σ τ) {i : ℕ} {r : Typ} (hr : Root uf i r) : τ i = r.fill τ := by
  induction hr with
  | here hi _ => exact h.bound _ _ hi
  | link hi hv _ _ ih => rw [← ih, h.bound _ _ hi, fill_of_varIndex hv]

theorem Fills.resolves (h : Fills uf σ τ) {a r : Typ} (hr : uf.Resolves a r) :
    a.fill τ = r.fill τ := by
  rcases hr with ⟨-, rfl⟩ | ⟨i, hi, hroot⟩
  · rfl
  · rw [fill_of_varIndex hi, h.root hroot]

/-- What agrees with a compressed store agrees with the store before. -/
theorem Fills.of_compressed (hc : uf.Compressed uf')
    (hroot : ∀ i < uf.inner.length, ∃ r, Root uf i r) (h : Fills uf' σ τ) : Fills uf σ τ where
  bound i e he := by
    obtain ⟨r, hr⟩ := hroot i (List.getElem?_eq_some_iff.mp he).1
    have hres : uf'.Resolves e r := (Resolves.compressed hc).mpr (hr.resolves_entry he)
    rw [h.root ((hc.root i r).mpr hr), h.resolves hres]
  never := h.never

/-- The write of an unset variable is undone: before it the variable stands for itself. -/
theorem Fills.of_set {v : ℕ} {t : Typ} (hv : uf.Unset v) (h : Fills (uf.set v t) σ τ) :
    Fills uf σ τ ∧ τ v = t.fill τ := by
  obtain ⟨u, hu, hui⟩ := hv
  have hlt := (List.getElem?_eq_some_iff.mp hu).1
  refine ⟨⟨fun i e he => ?_, h.never⟩, h.bound v t (inner_set_self hlt)⟩
  by_cases hvi : v = i
  · subst hvi
    obtain rfl := Option.some.inj (hu.symm.trans he)
    exact (fill_of_varIndex hui).symm
  · exact h.bound i e (by rw [inner_set_ne hvi]; exact he)

/-- What the solution makes `Never` is `Never` here. -/
theorem Fills.never_of_inst (h : Fills uf σ τ) {t : Typ} (ht : t.inst σ = .never) :
    t.fill τ = .never := by
  cases t with
  | var n | intVar n _ | floatVar n | recordVar n _ => exact h.never n ht
  | never => rfl
  | _ => simp [Typ.inst] at ht

/-- The job has made its types the same, record types being atoms. -/
def Job.FilledBy (τ : Assignment) : Job → Prop
  | .unify _ a b => a.fill τ = b.fill τ
  | .bind v t => τ v = t.fill τ
  | .fail _ _ => False

theorem fill_zip {as bs : List Typ} {e : Bool} (hlen : as.length = bs.length)
    (h : ∀ p ∈ as.zip bs, (Job.unify e p.1 p.2).FilledBy τ) :
    as.map (Typ.fill τ) = bs.map (Typ.fill τ) := by
  have hall : List.Forall₂ (fun a b => a.fill τ = b.fill τ) as bs :=
    List.forall₂_iff_zip.mpr ⟨hlen, fun {a b} hp => h (a, b) hp⟩
  have heq : List.Forall₂ Eq (as.map (Typ.fill τ)) (bs.map (Typ.fill τ)) :=
    List.forall₂_map_left_iff.mpr (List.forall₂_map_right_iff.mpr hall)
  rwa [List.forall₂_eq_eq_eq] at heq

/-- The arms on two resolved types that are no record variables. -/
theorem Arm.filled {a b : Typ} {r : Rule} {e : Bool} (harm : Arm D.types a b r)
    (hτ : Fills uf σ τ) (hab : a.inst σ = b.inst σ) (hra : ∀ v fs, a ≠ .recordVar v fs)
    (hrb : ∀ v fs, b ≠ .recordVar v fs) (hjobs : ∀ j ∈ r.jobs e a b, j.FilledBy τ) :
    a.fill τ = b.fill τ := by
  cases harm with
  | same => rfl
  | neverLeft _ => exact (hτ.never_of_inst (t := b) hab.symm).symm
  | neverRight _ => exact hτ.never_of_inst hab
  | bindLeft _ _ hv =>
    rw [fill_of_varIndex hv]
    exact hjobs _ (List.mem_singleton_self _)
  | bindRight _ _ hv =>
    rw [fill_of_varIndex hv]
    exact (hjobs _ (List.mem_singleton_self _)).symm
  | @fieldsLeft v fa => exact absurd rfl (hra v fa)
  | @fieldsRight v _ fb => exact absurd rfl (hrb v fb)
  | @fieldsRightName v _ fb => exact absurd rfl (hrb v fb)
  | @names n as bs _ =>
    rw [inst_name, inst_name] at hab
    have hlen : as.length = bs.length := by
      simpa using congrArg List.length (Typ.name.inj hab).2
    simp only [Typ.fill, fillList_eq_map]
    rw [fill_zip hlen fun p hp => hjobs _ (List.mem_map.mpr ⟨p, hp, rfl⟩)]
  | @functions ps qs r s _ =>
    rw [inst_function, inst_function] at hab
    have hlen : ps.length = qs.length := by
      simpa using congrArg List.length (Typ.function.inj hab).1
    have hjob : ∀ p ∈ ps.zip qs ++ [(r, s)], (Job.unify e p.1 p.2).FilledBy τ := fun p hp =>
      hjobs _ (List.mem_map.mpr ⟨p, hp, rfl⟩)
    have hret : r.fill τ = s.fill τ := hjob (r, s) (by simp)
    simp only [Typ.fill, fillList_eq_map]
    rw [fill_zip hlen fun p hp => hjob p (List.mem_append_left _ hp), hret]
  | fail => exact (hjobs _ (List.mem_singleton_self _)).elim

/-- Back through a run that ends well: what agrees with the store in the end agrees with every
store before, and the jobs have made their types the same. -/
theorem Solve.filled {log : List Binding} {s : Bool} (hrec : c.Recordless)
    (h : Solve c.decls.types uf js log s .ok uf') (hf : c.Follows uf js)
    (hσ : Solvable c.decls σ uf) (hjs : ∀ j ∈ js, j.SolvedBy σ) (hend : Fills uf' σ τ) :
    Fills uf σ τ ∧ ∀ j ∈ js, j.FilledBy τ := by
  generalize ho : Outcome.ok = o at h
  induction h with
  | nil uf => exact ⟨hend, fun j hj => nomatch hj⟩
  | fail uf a b js => cases ho
  | @bind uf uf' v t js log s o _ ih =>
    obtain ⟨hunset, hres, hne⟩ := hf.ready v t (List.mem_cons_self ..)
    obtain ⟨hv, -⟩ := hjs _ (List.mem_cons_self ..)
    have hknown := hf.known _ (List.mem_cons_self ..)
    have hset := hσ.set hunset hknown.2 hres hv hne
    obtain ⟨hfill, hrest⟩ := ih (hf.bind hrec.open) hset
      (fun j hj => hjs j (List.mem_cons_of_mem _ hj)) hend ho
    obtain ⟨hbefore, hbind⟩ := hfill.of_set hunset
    exact ⟨hbefore, List.forall_mem_cons.mpr ⟨hbind, hrest⟩⟩
  | @unify uf uf₁ uf₂ uf' n m e a b a' b' r js log s o hra hrb hr _ ih =>
    obtain ⟨hc, ha, hb, harm, -⟩ := hf.toRunInv.unify hra hrb hr
    have hmeets : c.Meets a b := hf.compares _ (List.mem_cons_self ..)
    have hma := hf.tracks.resolves ha hmeets
    have hmb := hf.tracks.resolves hb hmeets.symm
    obtain ⟨hka, hkb⟩ := hf.known _ (List.mem_cons_self ..)
    have hab : a'.inst σ = b'.inst σ := by
      rw [← hσ.solves.resolves ha, ← hσ.solves.resolves hb]
      exact hjs _ (List.mem_cons_self ..)
    have hσ₂ := hσ.compressed hc
    have hsolved := harm.solvedBy hσ₂.solves ((Resolves.compressed hc).mpr ha.idem)
      ((Resolves.compressed hc).mpr hb.idem) (hc.known.mpr (hf.valid.resolves hka ha))
      (hc.known.mpr (hf.valid.resolves hkb hb)) hab e
    have hnext : ∀ j ∈ r.jobs e a' b' ++ js, j.SolvedBy σ := fun j hj =>
      (List.mem_append.mp hj).elim (hsolved j) fun hj => hjs j (List.mem_cons_of_mem _ hj)
    obtain ⟨hfill, hjobs⟩ := ih (hf.unify hra hrb hr) hσ₂ hnext hend ho
    have hbefore := hfill.of_compressed hc hσ.rooted
    have hfilled := harm.filled hfill hab
      (fun v fs heq => hrec v fs (heq ▸ hma.symm.left))
      (fun v fs heq => hrec v fs (heq ▸ hmb.symm.left))
      fun j hj => hjobs j (List.mem_append_left _ hj)
    refine ⟨hbefore, List.forall_mem_cons.mpr ⟨?_, fun j hj =>
      hjobs j (List.mem_append_right _ hj)⟩⟩
    change a.fill τ = b.fill τ
    rw [hbefore.resolves ha, hbefore.resolves hb, hfilled]

end

/-! ### `fn f(a: {x: u8}) -> u8 { a.x }  fn g(b: {x: u8}) -> u8 { f(b) }` -/

def u8 : Typ := .name ⟨0, "u8"⟩ []

end Roto.TypeChecker
