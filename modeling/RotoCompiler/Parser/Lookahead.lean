import RotoCompiler.Parser.LexerSafe

/-!
# Lookahead and f-strings (parser/lexer.rs, parser/expr.rs)

The queue of peeked tokens is filled in the mode of tokens. Beside the lexer runs one that
peeks in a copy and so never lexes a token before the parser takes it. They agree as long
as nothing is peeked behind the start of an f-string.
-/

namespace Roto.Parser
open Lib

variable {u : Unicode} {l l' r r' : Lexer} {t : Lexed} {q : List Lexed}

/-- Lexing strictly on demand: a peek answers from a copy of the lexer. -/
def onDemand (u : Unicode) (r : Lexer) (op : Op) : Option (Out × Lexer) :=
  match op with
  | .peek => (step u r .peek).map fun x => (x.1, r)
  | .peekMany n => (step u r (.peekMany n)).map fun x => (x.1, r)
  | op => step u r op

/-- The two lexers return the same in all calls that the parser can make in the run, and
before each part of an f-string neither has lexed more than the other. -/
def agree (u : Unicode) : Mode → Lexer → Lexer → List Op → Bool
  | _, _, _, [] => true
  | mode, l, r, op :: ops =>
    !mode.allows op ||
      match step u l op, onDemand u r op with
      | none, none => true
      | some (out, l'), some (out', r') =>
        out = out' && (op ≠ .fStringPart || l = r) && agree u (.after op out) l' r' ops
      | _, _ => false

/-- The parser never looks at a third token when the second is the start of an f-string. -/
def NoFStringPeeked (u : Unicode) (mode : Mode) (l : Lexer) : List Op → Prop
  | [] => True
  | op :: ops => mode.allows op →
    (op = .peekMany 3 → ∀ span, l.peeked[1]? ≠ some (some .fStringStart, span)) ∧
      ∀ out l', step u l op = some (out, l') → NoFStringPeeked u (.after op out) l' ops

/-! ### Lexing does not look at the queue -/

def Flow.withPeeked (q : List Lexed) : Flow → Flow
  | .cont => .cont
  | .brk token span l => .brk token span { l with peeked := q }

theorem brkTo_withPeeked (l : Lexer) (tail : Text) (token : Text → Token) (q : List Lexed) :
    brkTo { l with peeked := q } tail token = (brkTo l tail token).map (Flow.withPeeked q) := by
  simp only [brkTo, Lexer.bumpTo, Lexer.bump]
  cases Text.splitAt l.input (String.utf8Len l.input - String.utf8Len tail) <;> rfl

theorem cut_withPeeked (l : Lexer) (n : ℕ) (token : Token) (q : List Lexed) :
    (do
      let ((_, span), l) ← Lexer.bump { l with peeked := q } n
      return .brk token span l : Option Flow) =
      (do
        let ((_, span), l) ← l.bump n
        return .brk token span l : Option Flow).map (Flow.withPeeked q) := by
  simp only [Lexer.bump]
  cases Text.splitAt l.input n <;> rfl

theorem number_withPeeked (l : Lexer) (q : List Lexed) :
    number u { l with peeked := q } = (number u l).map (Flow.withPeeked q) := by
  unfold number
  dsimp only
  split
  · rfl
  · next first rest hinput =>
    by_cases hdigit : (!isAsciiDigit first) = true
    · rw [if_pos hdigit, if_pos hdigit]
      rfl
    rw [if_neg hdigit, if_neg hdigit]
    generalize (floatPart u (eatWhile isRotoDigit l.input).2).1 = isFloat
    generalize (floatPart u (eatWhile isRotoDigit l.input).2).2 = tail₁
    generalize (eatWhile (fun c => u.isXidContinue c || c = '_') tail₁).2 = tail₂
    simp only [Lexer.bumpTo, Lexer.bump]
    cases Text.splitAt l.input (String.utf8Len l.input - String.utf8Len tail₂) with
    | none => rfl
    | some cut =>
      simp only [bind, Option.bind, pure]
      cases Text.splitAt cut.1 (String.utf8Len l.input - String.utf8Len tail₁) <;> rfl

theorem keywordOrIdent_withPeeked (l : Lexer) (q : List Lexed) :
    keywordOrIdent u { l with peeked := q } = (keywordOrIdent u l).map (Flow.withPeeked q) := by
  unfold keywordOrIdent
  dsimp only
  split
  · rfl
  · split_ifs
    · rfl
    · cases hsplit : Text.splitAt l.input 1 with
      | none => rfl
      | some r =>
        simp only [bind, Option.bind]
        exact brkTo_withPeeked l _ _ q

/-- A sub-lexer does to a lexer with a queue what it does to one without. -/
def Uniform (f : SubLexer) : Prop :=
  ∀ l q, f { l with peeked := q } = (f l).map (Flow.withPeeked q)

theorem firstOf_uniform {fs : List SubLexer} (h : ∀ f ∈ fs, Uniform f) : Uniform (firstOf fs) := by
  intro l q
  induction fs with
  | nil => rfl
  | cons f fs ih =>
    obtain ⟨hf, hfs⟩ := List.forall_mem_cons.mp h
    simp only [firstOf, hf l q]
    cases hflow : f l with
    | none => rfl
    | some flow =>
      cases flow with
      | cont => exact ih hfs
      | brk token span l' => rfl

theorem subLexers_uniform : Uniform (firstOf (subLexers u)) := by
  refine firstOf_uniform ?_
  simp only [subLexers, List.forall_mem_cons, List.not_mem_nil, false_implies, implies_true,
    and_true]
  refine ⟨?_, ?_, ?_, ?_, ?_, ?_, number_withPeeked, ?_, ?_, ?_, keywordOrIdent_withPeeked⟩
  · intro l q
    unfold ipv6
    dsimp only
    split
    · rfl
    · exact brkTo_withPeeked l _ _ q
  · intro l q
    unfold ipv4
    dsimp only
    split
    · rfl
    · exact brkTo_withPeeked l _ _ q
  · intro l q
    unfold twoCharPunctuation
    dsimp only
    split
    · split
      · rfl
      · exact cut_withPeeked l 2 _ q
    · rfl
  · intro l q
    unfold oneCharPunctuation
    dsimp only
    split
    · split
      · rfl
      · exact cut_withPeeked l 1 _ q
    · rfl
  · intro l q
    unfold asNumber
    dsimp only
    split_ifs
    · rfl
    · rfl
    · exact brkTo_withPeeked l _ _ q
  · intro l q
    unfold hexNumber
    dsimp only
    split_ifs
    · rfl
    · exact brkTo_withPeeked l _ _ q
  · intro l q
    unfold fString
    dsimp only
    split_ifs
    · rfl
    · exact brkTo_withPeeked l _ _ q
  all_goals
    intro l q
    simp only [string, char, quoted]
    split_ifs
    · rfl
    · rfl
    · exact brkTo_withPeeked l _ _ q

theorem nextInner_withPeeked (u : Unicode) (l : Lexer) (q : List Lexed) :
    nextInner u { l with peeked := q } =
      (nextInner u l).map fun x => (x.1, { x.2 with peeked := q }) := by
  have hskip := skipWhitespace_eq l
  have hskip' := skipWhitespace_eq { l with peeked := q }
  have huniform := subLexers_uniform (u := u) { l with input := skipLoop false l.input } q
  dsimp only at huniform hskip'
  simp only [nextInner, hskip, hskip', bind, Option.bind]
  split_ifs
  · rfl
  · rw [huniform]
    cases firstOf (subLexers u) { l with input := skipLoop false l.input } with
    | none => rfl
    | some flow => cases flow <;> rfl

/-- At the end of the input there are no more tokens, however often one asks. -/
theorem nextInner_drained (h : nextInner u r = some (none, l)) :
    nextInner u l = some (none, l) := by
  have hskip := skipWhitespace_eq r
  simp only [nextInner, hskip, bind, Option.bind] at h
  split_ifs at h with hempty
  · obtain rfl := (Prod.mk.inj (Option.some.inj h)).2
    have hnil : skipLoop false r.input = [] := List.isEmpty_iff.mp hempty
    have hskip' := skipWhitespace_eq { r with input := skipLoop false r.input }
    simp only [hnil, skipLoop] at hskip' ⊢
    simp only [nextInner, hskip', bind, Option.bind]
    rfl
  · cases hflow : firstOf (subLexers u) { r with input := skipLoop false r.input } with
    | none =>
      rw [hflow] at h
      cases h
    | some flow =>
      rw [hflow] at h
      cases flow with
      | cont => cases h
      | brk token span l' => cases h

/-! ### The queue is what the other lexer is going to lex -/

/-- Lexing `q` from `r` ends in `l`, or would end there with a look at the end of the input.
Nothing is lexed behind the end of a token that text can follow. -/
def Ahead (u : Unicode) : Lexer → List Lexed → Lexer → Prop
  | r, [], l => r = l ∨ nextInner u r = some (none, l)
  | r, t :: q, l => ∃ r', nextInner u r = some (some t, r') ∧
      (t.isStop = true → q = [] ∧ r' = l) ∧ Ahead u r' q l

theorem Ahead.snoc (h : Ahead u r q l) (hstop : ∀ x ∈ q, x.isStop = false)
    (hnext : nextInner u l = some (some t, l')) : Ahead u r (q ++ [t]) l' := by
  induction q generalizing r with
  | nil =>
    have hsame : r = l := by
      rcases h with h | h
      · exact h
      · rw [nextInner_drained h] at hnext
        cases hnext
    subst hsame
    exact ⟨l', hnext, fun _ => ⟨rfl, rfl⟩, .inl rfl⟩
  | cons x q ih =>
    obtain ⟨r', hx, -, hrest⟩ := h
    obtain ⟨hxstop, hqstop⟩ := List.forall_mem_cons.mp hstop
    refine ⟨r', hx, fun hyes => ?_, ih hrest hqstop⟩
    rw [hxstop] at hyes
    cases hyes

theorem Ahead.drained (h : Ahead u r q l) (hstop : ∀ x ∈ q, x.isStop = false)
    (hnext : nextInner u l = some (none, l')) : Ahead u r q l' := by
  induction q generalizing r with
  | nil =>
    rcases h with h | h
    · exact .inr (h ▸ hnext)
    · rw [nextInner_drained h] at hnext
      obtain rfl := (Prod.mk.inj (Option.some.inj hnext)).2
      exact .inr h
  | cons x q ih =>
    obtain ⟨r', hx, -, hrest⟩ := h
    obtain ⟨hxstop, hqstop⟩ := List.forall_mem_cons.mp hstop
    refine ⟨r', hx, fun hyes => ?_, ih hrest hqstop⟩
    rw [hxstop] at hyes
    cases hyes

/-- What `peek_many` looks at. -/
def filled (x : Bool × Lexer) : Bool × List Lexed := (x.1, x.2.peeked)

/-- Filling the queue further and filling it from its start give the same tokens. -/
theorem fill_ahead (k : ℕ) {p : List Lexed} (h : Ahead u r q l) :
    (fill u (q.length + k) { r with peeked := p }).map filled =
      (fill u k { l with peeked := p ++ q }).map filled := by
  induction q generalizing r p with
  | nil =>
    simp only [List.length_nil, Nat.zero_add, List.append_nil]
    rcases h with h | h
    · rw [h]
    · cases k with
      | zero => rfl
      | succ k =>
        have hr := nextInner_withPeeked u r p
        have hl := nextInner_withPeeked u l p
        rw [h] at hr
        rw [nextInner_drained h] at hl
        simp only [fill, hr, hl, Option.map_some, bind, Option.bind]
  | cons t q ih =>
    obtain ⟨r', ht, -, hrest⟩ := h
    have hr := nextInner_withPeeked u r p
    rw [ht] at hr
    have hlen : (t :: q).length + k = (q.length + k) + 1 := by
      simp only [List.length_cons]
      omega
    have hih := ih (p := p ++ [t]) hrest
    rw [hlen, fill, hr]
    simpa only [Option.map_some, bind, Option.bind, List.append_assoc, List.singleton_append]
      using hih

/-- The lexer with the queue taken out. -/
def Lexer.behind (l : Lexer) : Lexer := { l with peeked := [] }

theorem nextInner_behind (l : Lexer) :
    nextInner u l = (nextInner u l.behind).map fun x => (x.1, { x.2 with peeked := l.peeked }) :=
  nextInner_withPeeked u l.behind l.peeked

theorem behind_eq (h : l.peeked = []) : l.behind = l := by
  unfold Lexer.behind
  rw [← h]

theorem nextInner_peeked {x : Option Lexed} (h : nextInner u l = some (x, l')) :
    l'.peeked = l.peeked := by
  have hsame := nextInner_withPeeked u l l.peeked
  rw [show ({ l with peeked := l.peeked } : Lexer) = l from rfl, h] at hsame
  have hl' : l' = { l' with peeked := l.peeked } := (Prod.mk.inj (Option.some.inj hsame)).2
  have hpeeked := congrArg Lexer.peeked hl'
  exact hpeeked

theorem bump_peeked {n : ℕ} {x : Text × Span} (h : l.bump n = some (x, l')) :
    l'.peeked = l.peeked := by
  unfold Lexer.bump at h
  cases hsplit : Text.splitAt l.input n with
  | none => simp [hsplit] at h
  | some cut =>
    simp only [hsplit, bind, Option.bind, pure, Option.some.injEq, Prod.mk.injEq] at h
    rw [← h.2]

theorem skipShebang_peeked (h : skipShebang l = some l') : l'.peeked = l.peeked := by
  unfold skipShebang at h
  split at h
  · split_ifs at h
    · obtain ⟨⟨x, m⟩, hbump, rfl⟩ := Option.map_eq_some_iff.mp h
      exact bump_peeked hbump
    · rw [Option.some.inj h]
  · rw [Option.some.inj h]

theorem fStringPart_peeked {x : Option (FStringToken × Span) × Lexer} (h : fStringPart l = some x) :
    x.2.peeked = l.peeked := by
  unfold fStringPart at h
  split at h
  · rw [← Option.some.inj h]
  · next i _ =>
    cases hcut : l.bump (i - 1) with
    | none => simp [hcut] at h
    | some cut =>
      simp only [hcut, bind, Option.bind, pure] at h
      rw [← Option.some.inj h]
      exact bump_peeked hcut
  · next i _ =>
    cases hcut : l.bump i with
    | none => simp [hcut] at h
    | some cut =>
      cases hquote : cut.2.bump 1 with
      | none => simp [hcut, hquote] at h
      | some m =>
        simp only [hcut, hquote, bind, Option.bind, pure] at h
        rw [← Option.some.inj h]
        exact (bump_peeked hquote).trans (bump_peeked hcut)

/-! ### The two lexers side by side -/

/-- The second lexer lexes on demand. -/
structure InStep (u : Unicode) (mode : Mode) (l r : Lexer) : Prop where
  empty : r.peeked = []
  ahead : Ahead u r l.peeked l.behind
  same : mode = .start ∨ mode = .inFString → l = r
  curly : mode = .sawCurly ∨ mode = .peekedTwo →
    ∃ span q, l.peeked = (some .curlyLeft, span) :: q
  second : mode = .peekedTwo →
    nextInner u l.behind = some (none, l.behind) ∧ l.peeked.length = 1 ∨
      ∃ t₁ t₂, l.peeked = [t₁, t₂] ∧ t₂.1 ≠ some .curlyRight
  short : l.peeked.length ≤ if mode = .mustNext then 3 else 2

variable {mode : Mode} {op : Op} {out : Out} {n : ℕ}

theorem InStep.of_free (hempty : r.peeked = []) (hahead : Ahead u r l.peeked l.behind)
    (hshort : l.peeked.length ≤ 2) : InStep u .free l r where
  empty := hempty
  ahead := hahead
  same h := by rcases h with h | h <;> cases h
  curly h := by rcases h with h | h <;> cases h
  second h := by cases h
  short := hshort

theorem InStep.of_same (hempty : l.peeked = []) (hmode : mode ≠ .sawCurly)
    (hmode' : mode ≠ .peekedTwo) : InStep u mode l l where
  empty := hempty
  ahead := by
    rw [hempty]
    exact .inl (behind_eq hempty).symm
  same _ := rfl
  curly h := by
    rcases h with h | h
    · exact absurd h hmode
    · exact absurd h hmode'
  second h := absurd h hmode'
  short := by
    rw [hempty]
    exact Nat.zero_le _

/-- With no queue the lexers are the same, or one has already looked at the end. -/
theorem InStep.of_nil (h : InStep u mode l r) (hl : l.peeked = []) :
    r = l ∨ nextInner u r = some (none, l) := by
  have hahead := h.ahead
  rw [hl] at hahead
  unfold Ahead at hahead
  rwa [behind_eq hl] at hahead

theorem next_of_nil (h : l.peeked = []) : next u l = nextInner u l := by
  unfold next
  rw [h]

theorem step_next_inStep (h : InStep u mode l r) :
    (∃ out l' r', step u l .next = some (out, l') ∧ step u r .next = some (out, r') ∧
      InStep u (.after .next out) l' r') ∨ step u l .next = none ∧ step u r .next = none := by
  have hr := next_of_nil (u := u) h.empty
  cases hl : l.peeked with
  | nil =>
    have hl' := next_of_nil (u := u) hl
    have after : ∀ {x m}, nextInner u l = some (x, m) →
        InStep u (.after .next (.token x)) m m := by
      intro x m hm
      refine .of_same ((nextInner_peeked hm).trans hl) ?_ ?_ <;>
      · cases x with
        | none => simp [Mode.after]
        | some t => simp only [Mode.after]; split_ifs <;> simp
    rcases h.of_nil hl with hsame | hdrained
    · subst hsame
      cases hx : nextInner u r with
      | none => exact .inr ⟨by simp [step, hr, hx], by simp [step, hr, hx]⟩
      | some x =>
        exact .inl ⟨.token x.1, x.2, x.2, by simp [step, hr, hx], by simp [step, hr, hx], after hx⟩
    · have hagain := nextInner_drained hdrained
      exact .inl ⟨.token none, l, l, by simp [step, hl', hagain], by simp [step, hr, hdrained],
        after hagain⟩
  | cons t q =>
    have hahead := h.ahead
    rw [hl] at hahead
    obtain ⟨r', ht, hstop, hrest⟩ := hahead
    have hshort := h.short
    rw [hl, List.length_cons] at hshort
    have hq : q.length ≤ 2 := by
      split_ifs at hshort <;> omega
    have hempty : r'.peeked = [] := (nextInner_peeked ht).trans h.empty
    refine .inl ⟨.token (some t), { l with peeked := q }, r', by simp [step, next, hl],
      by simp [step, hr, ht], ?_⟩
    simp only [Mode.after]
    split_ifs with hyes
    · obtain ⟨rfl, rfl⟩ := hstop hyes
      exact .of_same rfl (by simp) (by simp)
    · exact .of_free hempty hrest hq

theorem after_peek (t : Lexed) :
    Mode.after .peek (.peeked (some t)) = if t.1 = some .curlyLeft then .sawCurly else .free := by
  obtain ⟨token, span⟩ := t
  cases token with
  | none => rfl
  | some token => cases token <;> rfl

/-- After a peek the queue starts with what was seen. -/
theorem InStep.after_peek {t : Lexed} (hempty : r.peeked = [])
    (hahead : Ahead u r l.peeked l.behind) (hl : l.peeked = t :: q) (hq : q.length ≤ 1) :
    InStep u (.after .peek (.peeked (some t))) l r := by
  have hshort : l.peeked.length ≤ 2 := by
    rw [hl, List.length_cons]
    omega
  rw [Parser.after_peek]
  split_ifs with hcurly
  · refine ⟨hempty, hahead, by simp, fun _ => ⟨t.2, q, ?_⟩, by simp, hshort⟩
    rw [hl, ← hcurly]
  · exact .of_free hempty hahead hshort

theorem step_peek_inStep (h : InStep u mode l r) (hmode : mode ≠ .mustNext) :
    (∃ out l', step u l .peek = some (out, l') ∧ onDemand u r .peek = some (out, r) ∧
      InStep u (.after .peek out) l' r) ∨ step u l .peek = none ∧ onDemand u r .peek = none := by
  have hshort := h.short
  rw [if_neg hmode] at hshort
  cases hl : l.peeked with
  | nil =>
    rcases h.of_nil hl with hsame | hdrained
    · subst hsame
      cases hx : nextInner u r with
      | none => exact .inr ⟨by simp [step, peek, hl, hx], by simp [onDemand, step, peek, hl, hx]⟩
      | some x =>
        obtain ⟨x, m⟩ := x
        have hm : m.peeked = [] := (nextInner_peeked hx).trans hl
        cases x with
        | none =>
          refine .inl ⟨.peeked none, m, by simp [step, peek, hl, hx],
            by simp [onDemand, step, peek, hl, hx], .of_free hl ?_ (by simp [hm])⟩
          rw [hm, behind_eq hm]
          exact .inr hx
        | some t =>
          refine .inl ⟨.peeked (some t), { m with peeked := [t] }, by simp [step, peek, hl, hx],
            by simp [onDemand, step, peek, hl, hx], .after_peek hl ?_ rfl (Nat.zero_le 1)⟩
          exact ⟨m, hx, fun _ => ⟨rfl, (behind_eq hm).symm⟩, .inl (behind_eq hm).symm⟩
    · have hagain := nextInner_drained hdrained
      refine .inl ⟨.peeked none, l, by simp [step, peek, hl, hagain],
        by simp [onDemand, step, peek, h.empty, hdrained], .of_free h.empty h.ahead hshort⟩
  | cons t q =>
    have hahead := h.ahead
    rw [hl] at hahead
    obtain ⟨r', ht, -, -⟩ := hahead
    rw [hl, List.length_cons] at hshort
    exact .inl ⟨.peeked (some t), l, by simp [step, peek, hl],
      by simp [onDemand, step, peek, h.empty, ht], .after_peek h.empty h.ahead hl (by omega)⟩

/-- What `peek_many` returns when the queue has been filled up. -/
def lookedAt (x : Bool × List Lexed) : Out := .many (if x.1 then x.2.mapM (·.1) else none)

theorem step_peekMany (h : l.peeked.length ≤ n) :
    step u l (.peekMany n) =
      (fill u (n - l.peeked.length) l).map fun x => (lookedAt (filled x), x.2) := by
  have hnot : ¬ n < l.peeked.length := Nat.not_lt.mpr h
  simp only [step, peekMany, if_neg hnot]
  cases fill u (n - l.peeked.length) l <;> rfl

/-- Both lexers answer `peek_many` in the same way. -/
theorem peekMany_agree (hempty : r.peeked = []) (hahead : Ahead u r l.peeked l.behind)
    (hn : l.peeked.length ≤ n) {P : Out → Lexer → Prop}
    (hafter : ∀ b l', fill u (n - l.peeked.length) l = some (b, l') →
      P (lookedAt (b, l'.peeked)) l') :
    (∃ out l', step u l (.peekMany n) = some (out, l') ∧
        onDemand u r (.peekMany n) = some (out, r) ∧ P out l') ∨
      step u l (.peekMany n) = none ∧ onDemand u r (.peekMany n) = none := by
  have hr : r.peeked.length ≤ n := by
    rw [hempty]
    exact Nat.zero_le n
  have hfill := fill_ahead (n - l.peeked.length) (p := []) hahead
  have hlen : l.peeked.length + (n - l.peeked.length) = n := by omega
  have hright : ({ r with peeked := [] } : Lexer) = r := behind_eq hempty
  rw [hlen, hright] at hfill
  have hleft : ({ l.behind with peeked := [] ++ l.peeked } : Lexer) = l := rfl
  rw [hleft] at hfill
  simp only [onDemand, step_peekMany hn, step_peekMany hr, hempty, List.length_nil, Nat.sub_zero]
  cases hl : fill u (n - l.peeked.length) l with
  | none =>
    rw [hl, Option.map_none, Option.map_eq_none_iff] at hfill
    exact .inr ⟨rfl, by rw [hfill]; rfl⟩
  | some x =>
    rw [hl, Option.map_some, Option.map_eq_some_iff] at hfill
    obtain ⟨y, hy, hsame⟩ := hfill
    refine .inl ⟨lookedAt (filled x), x.2, rfl, ?_, hafter x.1 x.2 hl⟩
    rw [hy, Option.map_some, Option.map_some, hsame]

/-- The second token has been peeked: nothing may be lexed further if it is a `}`. -/
theorem InStep.after_two {b : Bool} (h : InStep u .sawCurly l r)
    (hfill : fill u (2 - l.peeked.length) l = some (b, l')) :
    InStep u (.after (.peekMany 2) (lookedAt (b, l'.peeked))) l' r := by
  obtain ⟨span, q, hl⟩ := h.curly (.inl rfl)
  have hshort := h.short
  rw [hl, if_neg (by simp), List.length_cons] at hshort
  have hahead := h.ahead
  -- the mode does not matter yet
  have two : ∀ {m : Lexer} {t : Lexed}, m.peeked = [(some .curlyLeft, span), t] →
      Ahead u r m.peeked m.behind →
      InStep u (.after (.peekMany 2) (lookedAt (true, m.peeked))) m r := by
    intro m t hm hmahead
    have hlen : m.peeked.length = 2 := by rw [hm]; rfl
    by_cases hright : t.1 = some .curlyRight
    · have hmode : Mode.after (.peekMany 2) (lookedAt (true, m.peeked)) = .mustNext := by
        rw [hm]
        simp [lookedAt, Mode.after, hright]
      rw [hmode]
      exact ⟨h.empty, hmahead, by simp, by simp, by simp, by simp [hlen]⟩
    · have hmode : Mode.after (.peekMany 2) (lookedAt (true, m.peeked)) = .peekedTwo := by
        rw [hm]
        obtain ⟨token, span'⟩ := t
        cases token with
        | none => rfl
        | some token => cases token <;> first | rfl | exact absurd rfl hright
      rw [hmode]
      refine ⟨h.empty, hmahead, by simp, fun _ => ⟨span, [t], hm⟩,
        fun _ => .inr ⟨_, t, hm, hright⟩, by simp [hlen]⟩
  cases q with
  | nil =>
    rw [hl] at hahead hfill
    have hinner := nextInner_behind (u := u) l
    simp only [List.length_singleton, Nat.reduceSub, fill, hinner] at hfill
    have hstop : ∀ x ∈ [(some Token.curlyLeft, span)], Lexed.isStop x = false := by
      simp [Lexed.isStop, Token.isStop]
    cases hx : nextInner u l.behind with
    | none => simp [hx] at hfill
    | some x =>
      obtain ⟨x, m⟩ := x
      have hm : m.behind = m := behind_eq (nextInner_peeked hx)
      cases x with
      | none =>
        have hdrained := hahead.drained hstop hx
        simp only [hx, Option.map_some, bind, Option.bind, pure, Option.some.injEq,
          Prod.mk.injEq] at hfill
        obtain ⟨rfl, rfl⟩ := hfill
        have hbehind : ({ m with peeked := l.peeked } : Lexer).behind = m := hm
        refine ⟨h.empty, ?_, by simp [lookedAt, Mode.after], fun _ => ⟨span, [], hl⟩, fun _ => ?_,
          by simp [lookedAt, Mode.after, hl]⟩
        · rw [hbehind, hl]
          exact hdrained
        · refine .inl ⟨?_, by rw [hl]; rfl⟩
          rw [hbehind]
          exact nextInner_drained hx
      | some t =>
        have hsnoc := hahead.snoc hstop hx
        simp only [hx, Option.map_some, bind, Option.bind, pure, Option.some.injEq,
          Prod.mk.injEq] at hfill
        obtain ⟨rfl, rfl⟩ := hfill
        refine two (by rw [hl]; rfl) ?_
        rw [hl]
        rw [← hm] at hsnoc
        exact hsnoc
  | cons t rest =>
    cases rest with
    | cons _ _ => simp at hshort
    | nil =>
      rw [hl] at hfill
      simp only [List.length_cons, List.length_nil, Nat.reduceAdd, Nat.sub_self, fill,
        Option.some.injEq, Prod.mk.injEq] at hfill
      obtain ⟨rfl, rfl⟩ := hfill
      exact two hl hahead

/-- The third token has been peeked, behind one that is no `}` and starts no f-string. -/
theorem InStep.after_three {b : Bool} (h : InStep u .peekedTwo l r)
    (hno : ∀ span, l.peeked[1]? ≠ some (some .fStringStart, span))
    (hfill : fill u (3 - l.peeked.length) l = some (b, l')) :
    InStep u .mustNext l' r := by
  have hinner := nextInner_behind (u := u) l
  have hcurly := h.curly (.inr rfl)
  have hahead := h.ahead
  have hstop : ∀ x ∈ l.peeked, x.isStop = false := by
    obtain ⟨span, q, hl⟩ := hcurly
    have hfirst : Lexed.isStop (some .curlyLeft, span) = false := rfl
    rcases h.second rfl with ⟨-, hlen⟩ | ⟨t₁, t₂, hl₂, hright⟩
    · rw [hl, List.length_cons] at hlen
      obtain rfl : q = [] := List.length_eq_zero_iff.mp (by omega)
      simpa [hl] using hfirst
    · have hsecond : t₂.isStop = false := by
        have hno' := hno t₂.2
        rw [hl₂] at hno'
        obtain ⟨token, span⟩ := t₂
        cases token with
        | none => rfl
        | some token =>
          have hstart : token ≠ .fStringStart := fun heq => hno' (by rw [heq]; rfl)
          have hcurlyRight : token ≠ .curlyRight := fun heq => hright (by rw [heq])
          simp [Lexed.isStop, Token.isStop, hstart, hcurlyRight]
      rw [hl₂] at hl ⊢
      obtain ⟨rfl, rfl⟩ := List.cons.inj hl
      simp [hfirst, hsecond]
  have done : ∀ {m : Lexer}, Ahead u r m.peeked m.behind → m.peeked.length ≤ 3 →
      InStep u .mustNext m r := fun hm hlen =>
    ⟨h.empty, hm, by simp, by simp, by simp, by simpa using hlen⟩
  rcases h.second rfl with ⟨hdrained, hlen⟩ | ⟨t₁, t₂, hl, -⟩
  · rw [hdrained] at hinner
    simp only [hlen, Nat.reduceSub, fill, hinner, Option.map_some, bind, Option.bind, pure,
      Option.some.injEq, Prod.mk.injEq] at hfill
    obtain ⟨rfl, rfl⟩ := hfill
    exact done hahead (by show l.peeked.length ≤ 3; omega)
  · have hlen : l.peeked.length = 2 := by rw [hl]; rfl
    simp only [hlen, Nat.reduceSub, fill, hinner] at hfill
    cases hx : nextInner u l.behind with
    | none => simp [hx] at hfill
    | some x =>
      obtain ⟨x, m⟩ := x
      have hm : m.behind = m := behind_eq (nextInner_peeked hx)
      cases x with
      | none =>
        have hdrained := hahead.drained hstop hx
        simp only [hx, Option.map_some, bind, Option.bind, pure, Option.some.injEq,
          Prod.mk.injEq] at hfill
        obtain ⟨rfl, rfl⟩ := hfill
        rw [← hm] at hdrained
        exact done hdrained (by show l.peeked.length ≤ 3; omega)
      | some t =>
        have hsnoc := hahead.snoc hstop hx
        simp only [hx, Option.map_some, bind, Option.bind, pure, Option.some.injEq,
          Prod.mk.injEq] at hfill
        obtain ⟨rfl, rfl⟩ := hfill
        rw [← hm] at hsnoc
        exact done hsnoc (by simp [hl])

theorem step_inStep (h : InStep u mode l r) (hallow : mode.allows op = true)
    (hno : op = .peekMany 3 → ∀ span, l.peeked[1]? ≠ some (some .fStringStart, span)) :
    (∃ out l' r', step u l op = some (out, l') ∧ onDemand u r op = some (out, r') ∧
        InStep u (.after op out) l' r') ∨
      step u l op = none ∧ onDemand u r op = none := by
  cases op with
  | skipShebang =>
    have hsame : l = r := by
      cases mode <;> first | exact h.same (.inl rfl) | cases hallow
    subst hsame
    cases hskip : skipShebang l with
    | none => exact .inr ⟨by simp [step, hskip], by simp [onDemand, step, hskip]⟩
    | some m =>
      have hm : m.peeked = [] := (skipShebang_peeked hskip).trans h.empty
      exact .inl ⟨.unit, m, m, by simp [step, hskip], by simp [onDemand, step, hskip],
        .of_same hm (by simp [Mode.after]) (by simp [Mode.after])⟩
  | next => exact step_next_inStep h
  | peek =>
    have hmode : mode ≠ .mustNext := by
      rintro rfl
      cases hallow
    rcases step_peek_inStep h hmode with ⟨out, l', hstep, hdemand, hafter⟩ | hnone
    · exact .inl ⟨out, l', r, hstep, hdemand, hafter⟩
    · exact .inr hnone
  | peekMany n =>
    have hcases : mode = .sawCurly ∧ n = 2 ∨ mode = .peekedTwo ∧ n = 3 := by
      cases mode <;> simp_all [Mode.allows]
    have hshort := h.short
    rcases hcases with ⟨rfl, rfl⟩ | ⟨rfl, rfl⟩
    · rw [if_neg (by simp)] at hshort
      rcases peekMany_agree (P := fun out l' => InStep u (.after (.peekMany 2) out) l' r) h.empty
        h.ahead hshort (fun b l' hfill => h.after_two hfill) with ⟨out, l', hagree⟩ | hnone
      · exact .inl ⟨out, l', r, hagree⟩
      · exact .inr hnone
    · rw [if_neg (by simp)] at hshort
      have hmode : ∀ out, Mode.after (.peekMany 3) out = .mustNext := by
        intro out
        simp [Mode.after]
      rcases peekMany_agree (n := 3) (P := fun out l' => InStep u (.after (.peekMany 3) out) l' r)
        h.empty h.ahead (by omega)
        (fun b l' hfill => by rw [hmode]; exact h.after_three (hno rfl) hfill)
        with ⟨out, l', hagree⟩ | hnone
      · exact .inl ⟨out, l', r, hagree⟩
      · exact .inr hnone
  | fStringPart =>
    have hsame : l = r := by
      cases mode <;> first | exact h.same (.inr rfl) | cases hallow
    subst hsame
    cases hpart : fStringPart l with
    | none => exact .inr ⟨by simp [step, hpart], by simp [onDemand, step, hpart]⟩
    | some x =>
      have hx : x.2.peeked = [] := (fStringPart_peeked hpart).trans h.empty
      exact .inl ⟨.part x.1, x.2, x.2, by simp [step, hpart], by simp [onDemand, step, hpart],
        .of_same hx (by simp [Mode.after]) (by simp [Mode.after])⟩

theorem run_agree {ops : List Op} (h : InStep u mode l r) (hno : NoFStringPeeked u mode l ops) :
    agree u mode l r ops = true := by
  induction ops generalizing mode l r with
  | nil => rfl
  | cons op ops ih =>
    unfold agree
    by_cases hallow : mode.allows op = true
    · obtain ⟨hop, hrest⟩ := hno hallow
      rcases step_inStep h hallow hop with ⟨out, l', r', hstep, hdemand, hafter⟩ | ⟨hstep, hdemand⟩
      · have hsame : op = .fStringPart → l = r := by
          rintro rfl
          cases mode <;> first | exact h.same (.inr rfl) | cases hallow
        rw [hstep, hdemand]
        simp only [hallow, ih hafter (hrest out l' hstep), decide_true, Bool.true_and,
          Bool.not_true, Bool.false_or, Bool.and_true, Bool.or_eq_true, decide_eq_true_eq]
        by_cases hpart : op = .fStringPart
        · exact .inr (hsame hpart)
        · exact .inl hpart
      · rw [hstep, hdemand]
        exact Bool.or_true _
    · simp [hallow]

/-- Lookahead does not change what the parser gets, and nothing is lexed out of the text of an
f-string, in a run that never looks at a third token behind the start of an f-string. -/
theorem lookahead_agree (u : Unicode) (text : Text) (ops : List Op)
    (h : NoFStringPeeked u .start (Lexer.new text) ops) :
    agree u .start (Lexer.new text) (Lexer.new text) ops = true :=
  run_agree (.of_same rfl (by simp) (by simp)) h

theorem lookahead_agree_block :
    agree letters .start (Lexer.new ['{', 'f', '"', '"', '}'])
      (Lexer.new ['{', 'f', '"', '"', '}']) [.peek, .next, .next, .fStringPart] = true :=
  lookahead_agree letters ['{', 'f', '"', '"', '}'] [.peek, .next, .next, .fStringPart]
    fun _ => ⟨nofun, fun _ _ _ _ => ⟨nofun, fun _ _ _ _ => ⟨nofun, fun _ _ _ _ =>
      ⟨nofun, fun _ _ _ => trivial⟩⟩⟩⟩

/-- In `{ f"a" }` the lookahead for a record takes `a` out of the text of the f-string. -/
theorem lookahead_takes_text :
    agree letters .start (Lexer.new ['{', ' ', 'f', '"', 'a', '"', ' ', '}'])
      (Lexer.new ['{', ' ', 'f', '"', 'a', '"', ' ', '}'])
      [.peek, .peekMany 2, .peekMany 3, .next, .next, .fStringPart] = false := by
  decide

end Roto.Parser
