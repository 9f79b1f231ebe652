import RotoCompiler.Lir.EqBodies

/-!
# Generated equality functions

A function that is generated for a type compares two values of it, if the functions for the
types of the fields do.
-/

namespace Roto.Lir
open Mir

variable {rt : Rt}

/-! ### Whole functions -/

theorem generateFunction_of {name : FunName} {sig : Signature} {body : ScopeRef → Lower Unit}
    {ctx : LowerCtx} {s : Lowerer} (h : body ctx.scopes ctx.lowerer = some ((), s)) :
    generateFunction name sig body ctx =
      some (⟨name, ctx.scopes, sig, ctx.labels, s.vars, s.allBlocks⟩, s.ctx (ctx.scopes + 1)) := by
  unfold generateFunction
  rw [h]
  rfl

theorem wellFormed_of {f : Item} (hnodup : (f.blocks.map Block.label).Nodup)
    (hterminated : ∀ b ∈ f.blocks, b.terminated)
    (htargets : ∀ b ∈ f.blocks, ∀ t ∈ b.targets, t ∈ f.blocks.map Block.label)
    (hentry : f.entryBlock ∈ f.blocks.map Block.label) : f.wellFormed = true := by
  have hone : ∀ lbl ∈ f.blocks.map Block.label,
      (f.blocks.filter fun b => b.label = lbl).length = 1 := by
    intro lbl hlbl
    have hcount := List.count_eq_one_of_mem hnodup hlbl
    rw [List.count, List.countP_map, List.countP_eq_length_filter] at hcount
    exact hcount
  unfold Item.wellFormed Item.labels
  rw [Bool.and_eq_true, List.all_eq_true, List.all_eq_true]
  refine ⟨hterminated, fun lbl hlbl => decide_eq_true (hone lbl ?_)⟩
  rcases List.mem_cons.mp hlbl with rfl | hlbl
  · exact hentry
  rcases List.mem_append.mp hlbl with hlbl | hlbl
  · exact hlbl
  · obtain ⟨b, hb, ht⟩ := List.mem_flatMap.mp hlbl
    exact htargets b hb lbl ht

theorem allocate_vals {vars : List (Var × ValueOrSlot)} (h : ∀ v ∈ vars, ∃ ty, v.2 = .val ty)
    (regs : Regs) (top : ℕ) : allocate vars regs top = (regs, top) := by
  induction vars with
  | nil => rfl
  | cons v vars ih =>
    obtain ⟨var, slot⟩ := v
    obtain ⟨⟨ty, rfl⟩, hvars⟩ := List.forall_mem_cons.mp h
    exact ih hvars

def eqSignature : Signature := ⟨[("left", .pointer), ("right", .pointer)], false, false, some .bool⟩

/-- A function that comes to the return of an answer, from any registers. -/
theorem answers_of_goes {p : Program} {env : Externs} {f : Item} {name : FunName} {l : Locals}
    {r : Bool} {a b : ℕ} {body : List Instruction} {s : Lowerer} (hfind : p.find name = some f)
    (hsig : f.irSignature = eqSignature) (hvars : ∀ v ∈ f.vars, ∃ ty, v.2 = .val ty)
    (hentry : findBlock f.blocks f.entryBlock = some body)
    (hgoes : ∀ l', l'.regs.operand (.place ⟨f.scope, .explicit "left"⟩) = some (.pointer a) →
      l'.regs.operand (.place ⟨f.scope, .explicit "right"⟩) = some (.pointer b) →
      l'.mem = l.mem → Goes p env s f.blocks body l' [.ret (some (.value (.bool r)))]) :
    Answers p env name none [.pointer a, .pointer b] l (some (.bool r)) l := by
  let regs := f.params none none [.pointer a, .pointer b]
  have hleft : regs.operand (.place ⟨f.scope, .explicit "left"⟩) = some (.pointer a) := by
    simp [regs, Item.params, hsig, eqSignature, Regs.operand, Regs.set, Function.update]
  have hright : regs.operand (.place ⟨f.scope, .explicit "right"⟩) = some (.pointer b) := by
    simp [regs, Item.params, hsig, eqSignature, Regs.operand, Regs.set]
  obtain ⟨l', -, hmem, hevents, hsteps⟩ := hgoes { l with regs := regs } hleft hright rfl
  refine ⟨f, hfind, fun c callers top => ⟨⟨f.blocks, body, { l with regs := regs }, c :: callers,
    top⟩, ?_, ?_⟩⟩
  · simp only [Item.enter, hentry, allocate_vals hvars, Option.bind_eq_bind, Option.bind_some]
    rfl
  · refine (hsteps (c :: callers) top).trans (.head step_ret ?_)
    have hresume : c.resume (some (.bool r)) l' callers = c.resume (some (.bool r)) l callers := by
      simp only [Caller.resume, hmem, hevents]
    exact hresume ▸ Relation.ReflTransGen.refl

/-- The types of the fields in a type. -/
def parts : Ty → List Ty
  | .record fields => fields.map (·.2)
  | .enum variants => variants.flatMap (·.2)
  | _ => []

/-- The discriminant has a byte for each variant. -/
def discriminantsFit : Ty → Bool
  | .enum variants => variants.length ≤ 256
  | _ => true

/-- A function compares the values of a type, if the functions for the fields do, and nothing of
the offsets and the discriminants is cast away. -/
structure EqFunction (rt : Rt) (ty : Ty) (f : Item) : Prop where
  name : f.name = .generatedEq ty
  wellFormed : f.wellFormed = true
  answers : offsetsFit rt ty = true → discriminantsFit ty = true →
    ∀ (X : Type) (p : Program) (env : Externs) (R : RustValues X env),
      p.find (.generatedEq ty) = some f → (∀ t ∈ parts ty, isGenerated t → EqAnswers rt R p t) →
        EqAnswers rt R p ty

/-- The function for a type is generated, and those for the types of its fields are queued. -/
def Generates (rt : Rt) (ty : Ty) (ctx : LowerCtx) : Prop :=
  ∃ f ctx', generateEq rt ty ctx = some (f, ctx') ∧
    ctx'.eqToGenerate = ctx.eqToGenerate ++ (parts ty).flatMap (fun t => eqsOf t .eqs) ∧
    EqFunction rt ty f

/-- What is left to show of the blocks of a body. -/
theorem generates_of {ty : Ty} {ctx : LowerCtx} {s t : Lowerer} {body : List Instruction}
    (hrun : generateEqBody rt ty ctx.scopes ctx.lowerer = some ((), s))
    (hqueue : s.eqToGenerate = ctx.eqToGenerate ++ (parts ty).flatMap fun t => eqsOf t .eqs)
    (hvars : ∀ v ∈ s.vars, ∃ ty, v.2 = .val ty)
    (hnodup : (s.allBlocks.map Block.label).Nodup)
    (hterminated : ∀ b ∈ s.allBlocks, b.terminated)
    (htargets : ∀ b ∈ s.allBlocks, ∀ t ∈ b.targets, t ∈ s.allBlocks.map Block.label)
    (hentry : ⟨ctx.labels, body⟩ ∈ s.allBlocks)
    (hgoes : offsetsFit rt ty = true → discriminantsFit ty = true →
      ∀ (X : Type) (p : Program) (env : Externs) (R : RustValues X env) (l : Locals)
      (a b : ℕ) (v w : Value X), (∀ t ∈ parts ty, isGenerated t → EqAnswers rt R p t) →
      l.regs.operand (.place ⟨ctx.scopes, .explicit "left"⟩) = some (.pointer a) →
      l.regs.operand (.place ⟨ctx.scopes, .explicit "right"⟩) = some (.pointer b) →
      Holds rt R.holds l.mem ty a v → Holds rt R.holds l.mem ty b w →
      Goes p env t s.allBlocks body l [.ret (some (.value (.bool (Value.eq rt R.eq v w))))]) :
    Generates rt ty ctx := by
  refine ⟨_, _, generateFunction_of hrun, hqueue, rfl, ?_, ?_⟩
  · exact wellFormed_of hnodup hterminated htargets (List.mem_map_of_mem hentry)
  · intro hfit hdiscriminants X p env R hfind hanswers l a b v w hv hw
    refine answers_of_goes (s := t) hfind rfl hvars (found_of_nodup hnodup _ hentry) ?_
    intro l' ha hb hmem
    rw [← hmem] at hv hw
    exact hgoes hfit hdiscriminants X p env R l' a b v w hanswers ha hb hv hw

/-! ### Records -/

/-- The start of `generate_eq_body_record` makes the labels and jumps to the first field. -/
theorem generateEqBodyRecord_run (left right : Var) (fields : List (Identifier × Ty))
    (s : Lowerer) :
    generateEqBodyRecord rt left right fields s =
      ((eqFields rt left right (s.labels + 1 + (fields.length + 1))
          (List.range' (s.labels + 1) (fields.length + 1)) (eqRecordFields rt .new fields) >>=
        fun _ => unwrap (List.range' (s.labels + 1) (fields.length + 1)).getLast? >>=
        fun last => returnBool last true) >>=
        fun _ => returnBool (s.labels + 1 + (fields.length + 1)) false)
      { s with
        labels := s.labels + 1 + (fields.length + 1) + 1
        instructions := s.instructions ++ [.jump (s.labels + 1)] } := by
  simp only [generateEqBodyRecord, bind_assoc]
  exact Lower.bind_of rfl (Lower.bind_of (wrapInternals_run _ _) (Lower.bind_of rfl
    (Lower.bind_of rfl (Lower.bind_of rfl rfl))))

theorem generates_record {fields : List (Identifier × Ty)}
    (hsized : ∀ t ∈ fields.map (·.2), Sized rt t) (ctx : LowerCtx) :
    Generates rt (.record fields) ctx := by
  obtain ⟨ls, hls⟩ := @layoutsOf_isSome rt (fields.map (·.2)) fun t ht => by
    obtain ⟨l, hl, -⟩ := hsized t ht
    exact Option.isSome_of_eq_some hl
  let left : Var := ⟨ctx.scopes, .explicit "left"⟩
  let right : Var := ⟨ctx.scopes, .explicit "right"⟩
  let placed := ((LayoutBuilder.new.placed ls).map asU32).zip (fields.map (·.2))
  have htypes : placed.map (·.2) = fields.map (·.2) := placed_types hls .new
  have hlength : fields.length = placed.length := by
    rw [← List.length_map (f := fun f : ℕ × Ty => f.2), htypes, List.length_map]
  have hall : ∀ f ∈ placed, Sized rt f.2 :=
    fun f hf => hsized f.2 (htypes ▸ List.mem_map_of_mem hf)
  -- the labels of the fields start at `n`, and the one for unequal fields is after them
  let n := ctx.labels + 1 + 1
  let s₁ : Lowerer := { ctx.lowerer with
    labels := n + (placed.length + 1) + 1, instructions := [.jump n] }
  obtain ⟨bs, s₂, hadds, -, hchain⟩ := eqChain_adds (fun s => old_explicit s ctx.scopes "left")
    (fun s => old_explicit s ctx.scopes "right") (n + (placed.length + 1)) hall n s₁
  obtain ⟨s₃, hfalse, -⟩ := returnBool_adds (n + (placed.length + 1)) false s₂
  have hadds' := hadds.bind (k := fun _ => returnBool (n + (placed.length + 1)) false) hfalse
  have hrun : generateEqBody rt (.record fields) ctx.scopes ctx.lowerer = some ((), s₃) := by
    show generateEqBodyRecord rt left right fields ctx.lowerer = _
    rw [generateEqBodyRecord_run, hlength, eqRecordFields_eq hls]
    exact hadds'.run
  let falseBlock : Block := ⟨n + (placed.length + 1), [.ret (some (.value (.bool false)))]⟩
  let entry : Block := ⟨ctx.labels, [.jump n]⟩
  have hblocks : s₃.allBlocks = entry :: (bs ++ [falseBlock]) := hadds'.blocks
  have hrange : List.range' n (placed.length + 1 + 1) =
      List.range' n (placed.length + 1) ++ [n + (placed.length + 1)] := List.range'_1_concat
  have hlabels : s₃.allBlocks.map Block.label =
      ctx.labels :: List.range' n (placed.length + 1 + 1) := by
    rw [hblocks, List.map_cons, List.map_append, hchain.labels, hrange]
    rfl
  have hnodup : (s₃.allBlocks.map Block.label).Nodup := by
    rw [hlabels, List.nodup_cons, List.mem_range'_1]
    exact ⟨by omega, List.nodup_range'⟩
  have hmem : ∀ t, n ≤ t ∧ t < n + (placed.length + 2) → t ∈ s₃.allBlocks.map Block.label := by
    intro t ht
    rw [hlabels]
    exact List.mem_cons_of_mem _ (List.mem_range'_1.mpr ht)
  refine generates_of (t := s₁) hrun ?_ ?_ hnodup ?_ ?_ (hblocks ▸ List.mem_cons_self) ?_
  · have hqueue := hadds'.queue .eqs
    have hflat : placed.flatMap (fun f => eqsOf f.2 .eqs) =
        (fields.map (·.2)).flatMap fun t => eqsOf t .eqs := by
      rw [← htypes, List.flatMap_map]
    rw [noneNew, List.append_nil, hflat] at hqueue
    exact hqueue
  · obtain ⟨vars, hvars, hval⟩ := hadds'.vars
    rw [hvars]
    exact hval
  · rw [hblocks, List.forall_mem_cons, List.forall_mem_append]
    refine ⟨rfl, hchain.terminated, fun b hb => ?_⟩
    obtain rfl := List.mem_singleton.mp hb
    rfl
  · rw [hblocks, List.forall_mem_cons, List.forall_mem_append, ← hblocks]
    refine ⟨fun t ht => ?_, fun b hb t ht => ?_, fun b hb t ht => ?_⟩
    · obtain rfl := List.mem_singleton.mp ht
      exact hmem n (by omega)
    · apply hmem
      have htarget := hchain.targets b hb t ht
      rw [hchain.labels, List.mem_range'_1] at htarget
      rcases htarget with rfl | htarget <;> omega
    · obtain rfl := List.mem_singleton.mp hb
      cases ht
  · intro hfit _ X p env R l a b v w hanswers ha hb hv hw
    have hcast : (LayoutBuilder.new.placed ls).zip (fields.map (·.2)) = placed := by
      rw [← map_asU32 ((offsetsFit_record hls).mp hfit)]
    cases hv with
    | leaf hid => cases hid
    | record hls' hvs =>
    cases hw with
    | leaf hid => cases hid
    | record hls'' hws =>
    obtain rfl := Option.some.inj (hls'.symm.trans hls)
    obtain rfl := Option.some.inj (hls''.symm.trans hls)
    have hfound := found_of_nodup hnodup
    have hbs : Found s₃.allBlocks bs := fun b hb => hfound b (by rw [hblocks]; simp [hb])
    have hfalse : findBlock s₃.allBlocks (n + (placed.length + 1)) = some falseBlock.instructions :=
      hfound falseBlock (by rw [hblocks]; simp)
    have hmemFirst : n ∈ bs.map Block.label := by
      rw [hchain.labels, List.mem_range'_1]
      omega
    obtain ⟨is, hfirst⟩ := hbs.find hmemFirst
    refine (Goes.jump hfirst).trans rfl (le_refl s₁.tmpIdx) fun l' hkept hmem => ?_
    rw [← hmem, hcast] at hvs hws
    have ha' := (hkept.operand (old_explicit s₁ ctx.scopes "left")).trans ha
    have hb' := (hkept.operand (old_explicit s₁ ctx.scopes "right")).trans hb
    have hanswers' : ∀ f ∈ placed, isGenerated f.2 → EqAnswers rt R p f.2 :=
      fun f hf => hanswers f.2 (by rw [parts, ← htypes]; exact List.mem_map_of_mem hf)
    have hgoes := hchain.goes X p env R s₃.allBlocks l' a b _ _ is falseBlock.instructions hanswers'
      hbs hfirst hfalse ha' hb' hvs hws
    rw [Value.eq]
    cases heq : Value.eqAll rt R.eq _ _ <;> rw [heq] at hgoes <;> exact hgoes

/-! ### Enums -/

/-- The start of `generate_eq_body_enum`: a block that compares the discriminants, and one that
goes to the blocks for the variant. -/
structure EqEntry (left right : Var) (n : ℕ) (s : Lowerer) (code : List Instruction) (x : Operand)
    (s' : Lowerer) : Prop where
  run : eqEntry left right n s = some ((s.labels + 2, List.range' (s.labels + 3) n), s')
  blocks : s'.blocks = s.blocks ++ [⟨s.label, s.instructions ++ code⟩]
  label : s'.label = s.labels + 1
  instructions : s'.instructions =
    [.switch x ((List.range n).zip (List.range' (s.labels + 3) n)) (s.labels + 2)]
  scope : s'.functionScope = s.functionScope
  labels : s'.labels = s.labels + 3 + n
  tmpIdx : s.tmpIdx ≤ s'.tmpIdx
  vars : ∃ vars, s'.vars = s.vars ++ vars ∧ ∀ v ∈ vars, ∃ ty, v.2 = .val ty
  queue : ∀ q, s'.queue q = s.queue q
  terminated : ∀ lbl, Block.terminated ⟨lbl, code⟩
  targets : ∀ lbl, Block.targets ⟨lbl, code⟩ = [s.labels + 1, s.labels + 2]
  goes : ∀ (p : Program) (env : Externs) (B : List Block) (l : Locals) (a b : ℕ)
    (is isFalse : List Instruction), findBlock B (s.labels + 1) = some s'.instructions →
    findBlock B (s.labels + 2) = some isFalse →
    l.regs.operand (.place left) = some (.pointer a) →
    l.regs.operand (.place right) = some (.pointer b) →
    (l.mem a = l.mem b → (l.mem a).toNat < n ∧
      findBlock B (s.labels + 3 + (l.mem a).toNat) = some is) →
    Goes p env s B code l (if l.mem a = l.mem b then is else isFalse)

theorem bits_one (m : Lib.Memory) (a : ℕ) : m.bits 1 a = (m a).toNat := by
  rw [Lib.Memory.bits, Lib.Memory.bits, Nat.mul_zero, Nat.add_zero]

theorem eqEntry_spec {left right : Var} (n : ℕ) {s : Lowerer} (hright : Old s right) :
    ∃ code x s', EqEntry left right n s code x s' := by
  let s₀ : Lowerer := { s with labels := s.labels + 3 + n }
  obtain ⟨d, code₁, s₁, hemits₁, hold₁, hgives₁⟩ := readTmp_gives s₀ left .u8
  obtain ⟨e, code₂, s₂, hemits₂, hold₂, hgives₂⟩ := readTmp_gives s₁ right .u8
  let dest : Var := ⟨s₂.functionScope, .tmp s₂.tmpIdx⟩
  let cmp : Instruction := .intCmp dest .eq (.place d) (.place e)
  have hcmp := (Emits.newTmp .u8 s₂).bind (k := fun _ => emit cmp) (.emit rfl _)
  have hall := hemits₁.bind (k := fun _ => readTmp right .u8 >>= fun _ => newTmp .u8 >>= fun _ =>
    emit cmp) (hemits₂.bind hcmp)
  let switch : Instruction := .switch (.place dest) [(1, s.labels + 1)] (s.labels + 2)
  let lbls := List.range' (s.labels + 3) n
  let branches := (List.range n).zip lbls
  let s' : Lowerer := { s₂ with
    tmpIdx := s₂.tmpIdx + 1, vars := s₂.vars ++ [(dest, .val .u8)]
    blocks := s₂.blocks ++ [⟨s₂.label, s₂.instructions ++ [cmp] ++ [switch]⟩]
    label := s.labels + 1, instructions := [.switch (.place d) branches (s.labels + 2)] }
  refine ⟨code₁ ++ (code₂ ++ ([] ++ [cmp])) ++ [switch], .place d, s',
    { run := Lower.bind_of rfl (Lower.bind_of rfl (Lower.bind_of rfl
        (Lower.bind_of (wrapInternals_run n _) (Lower.bind_of hemits₁.run
          (Lower.bind_of hemits₂.run (Lower.bind_of rfl (Lower.bind_of rfl (Lower.bind_of rfl
            (Lower.bind_of rfl (Lower.bind_of rfl rfl))))))))))
      blocks := ?_
      label := rfl
      instructions := rfl
      scope := hall.scope
      labels := hall.labels
      tmpIdx := hall.tmpIdx
      vars := hall.vars
      queue := ?_
      terminated := fun lbl => terminated_block hall.straight rfl lbl
      targets := fun lbl => targets_block hall.straight lbl
      goes := ?_ }⟩
  · have hblocks : s₂.blocks = s.blocks := hall.blocks
    have hlabel : s₂.label = s.label := hall.label
    have hinstructions : s₂.instructions ++ [cmp] =
        s.instructions ++ (code₁ ++ (code₂ ++ ([] ++ [cmp]))) := hall.instructions
    show s₂.blocks ++ [Block.mk s₂.label (s₂.instructions ++ [cmp] ++ [switch])] = _
    rw [hblocks, hlabel, hinstructions, List.append_assoc]
  · intro q
    have hqueue := hall.queue q
    simp only [noneNew, List.append_nil] at hqueue
    cases q <;> exact hqueue
  · intro p env B l a b is isFalse hmatch hfalse ha hb hvariant
    rw [List.append_assoc, List.append_assoc, List.nil_append]
    show Goes p env s₀ B _ l _
    refine Goes.after hemits₁ (hgives₁ p env l a ha) fun l₁ hkept₁ hmem₁ hd => ?_
    have hb₁ := (hkept₁.operand hright).trans hb
    refine Goes.after hemits₂ (hgives₂ p env l₁ b hb₁) fun l₂ hkept₂ hmem₂ he => ?_
    have hd₂ := (hkept₂.operand hold₁).trans hd
    rw [hmem₁] at he
    have hexec : env.exec l₂ cmp = some (l₂.set dest (.bool (l.mem a = l.mem b))) := by
      have hholds : decide (l.mem.bits 1 a = l.mem.bits 1 b) = decide (l.mem a = l.mem b) := by
        simp only [bits_one, UInt8.toNat_inj]
      simp only [cmp, Externs.exec, hd₂, he, Option.bind_eq_bind, Option.bind_some, IntCmp.holds]
      exact congrArg (fun x => some (l₂.set dest (.bool x))) hholds
    refine Goes.after hcmp (.set s₂ hexec) fun l₃ hkept₃ hmem₃ hc => ?_
    have hd₃ := (hkept₃.operand (hemits₂.old hold₁)).trans hd₂
    let s₃ : Lowerer := { s₂ with tmpIdx := s₂.tmpIdx + 1 }
    have hgo : Goes p env s₃ B [switch] l₃
        (if decide (l.mem a = l.mem b) then s'.instructions else isFalse) :=
      Goes.switch_bool ⟨l₃, .nil s₃ l₃, rfl, rfl, hc⟩ hmatch hfalse
    by_cases heq : l.mem a = l.mem b
    · obtain ⟨hlt, hfind⟩ := hvariant heq
      rw [if_pos (decide_eq_true heq)] at hgo
      rw [if_pos heq]
      refine hgo.trans rfl (le_refl s₃.tmpIdx) fun l₄ hkept₄ _ => ?_
      have hold : Old s₃ d := (hemits₂.old hold₁).mono rfl (Nat.le_succ _)
      have hd₄ := (hkept₄.operand hold).trans hd₃
      have hlen : (l.mem a).toNat < lbls.length := by simpa [lbls] using hlt
      have hbranch : branches.find? (fun b => b.1 = l.mem.bits 1 a) =
          some ((l.mem a).toNat, s.labels + 3 + (l.mem a).toNat) := by
        rw [bits_one, find_range_zip hlt hlen]
        simp [lbls]
      have hgives : Gives p env s₃ [] l₄ (.place d) ⟨.u8, l.mem.bits 1 a⟩ :=
        ⟨l₄, .nil s₃ l₄, rfl, rfl, hd₄⟩
      refine Goes.switch hgives ?_
      rw [hbranch]
      exact hfind
    · rw [if_neg (by simpa using heq)] at hgo
      rw [if_neg heq]
      exact hgo

theorem generates_enum {variants : List (Identifier × List Ty)}
    (hsized : ∀ v ∈ variants, ∀ t ∈ v.2, Sized rt t) (ctx : LowerCtx) :
    Generates rt (.enum variants) ctx := by
  let left : Var := ⟨ctx.scopes, .explicit "left"⟩
  let right : Var := ⟨ctx.scopes, .explicit "right"⟩
  have hleft : ∀ s, Old s left := fun s => old_explicit s ctx.scopes "left"
  have hright : ∀ s, Old s right := fun s => old_explicit s ctx.scopes "right"
  obtain ⟨code, x, s₁, hentry⟩ :=
    @eqEntry_spec left right variants.length ctx.lowerer (hright ctx.lowerer)
  -- the labels before those of the variants
  let matchLbl := ctx.labels + 2
  let falseLbl := ctx.labels + 3
  let lbls := List.range' (ctx.labels + 4) variants.length
  have hlength : lbls.length = variants.length := List.length_range'
  obtain ⟨bs, s₂, hadds, hvariants⟩ :=
    eqVariants_adds hleft hright falseLbl hlength hsized s₁
  obtain ⟨s₃, hreturn, -⟩ := returnBool_adds falseLbl false s₂
  have hadds' := hadds.bind (k := fun _ => returnBool falseLbl false) hreturn
  have hrun : generateEqBody rt (.enum variants) ctx.scopes ctx.lowerer = some ((), s₃) := by
    show generateEqBodyEnum rt left right variants ctx.lowerer = _
    rw [generateEqBodyEnum_eq]
    exact Lower.bind_of hentry.run hadds'.run
  let first : Block := ⟨ctx.labels, code⟩
  let second : Block := ⟨matchLbl, s₁.instructions⟩
  let falseBlock : Block := ⟨falseLbl, [.ret (some (.value (.bool false)))]⟩
  have hstart : s₁.allBlocks = [first, second] := by
    rw [Lowerer.allBlocks, hentry.blocks, hentry.label]
    rfl
  have hblocks : s₃.allBlocks = first :: second :: (bs ++ [falseBlock]) := by
    rw [hadds'.blocks, hstart]
    rfl
  have hlabels : s₁.labels = ctx.labels + 4 + variants.length := by
    rw [hentry.labels]
    show ctx.labels + 1 + 3 + variants.length = _
    omega
  have hge : ∀ n ∈ bs.map Block.label, ctx.labels + 4 ≤ n := by
    intro n hn
    rcases hvariants.labels n hn with hn | hn
    · exact (List.mem_range'_1.mp hn).1
    · omega
  have hlt : ∀ n ∈ lbls, n < s₁.labels := by
    intro n hn
    have hn := List.mem_range'_1.mp hn
    omega
  have hlabelsAll : s₃.allBlocks.map Block.label =
      ctx.labels :: matchLbl :: (bs.map Block.label ++ [falseLbl]) := by
    rw [hblocks, List.map_cons, List.map_cons, List.map_append]
    rfl
  have hnodup : (s₃.allBlocks.map Block.label).Nodup := by
    have hbs := hvariants.nodup List.nodup_range' hlt
    have hfresh : ∀ n, n < ctx.labels + 4 → n ∉ bs.map Block.label :=
      fun n hn hmem => absurd (hge n hmem) (Nat.not_le_of_lt hn)
    rw [hlabelsAll, List.nodup_cons, List.nodup_cons, List.nodup_append]
    simp only [List.mem_cons, List.mem_append, List.not_mem_nil, or_false]
    refine ⟨?_, ?_, hbs, List.nodup_singleton _, ?_⟩
    · have hmatch : ctx.labels ≠ ctx.labels + 2 := by omega
      have hfalse : ctx.labels ≠ ctx.labels + 3 := by omega
      rintro (h | h | h)
      · exact hmatch h
      · exact hfresh ctx.labels (by omega) h
      · exact hfalse h
    · have hfalse : ctx.labels + 2 ≠ ctx.labels + 3 := by omega
      rintro (h | h)
      · exact hfresh (ctx.labels + 2) (by omega) h
      · exact hfalse h
    · rintro n hn _ rfl rfl
      exact hfresh (ctx.labels + 3) (by omega) hn
  have hmem : ∀ n, n = matchLbl ∨ n = falseLbl ∨ n ∈ bs.map Block.label →
      n ∈ s₃.allBlocks.map Block.label := by
    intro n hn
    rw [hlabelsAll]
    simp only [List.mem_cons, List.mem_append]
    tauto
  refine generates_of (t := ctx.lowerer) hrun ?_ ?_ hnodup ?_ ?_ (hblocks ▸ List.mem_cons_self) ?_
  · have hqueue := hadds'.queue .eqs
    rw [hentry.queue, noneNew, List.append_nil] at hqueue
    rw [parts, List.flatMap_assoc]
    exact hqueue
  · obtain ⟨vars₁, hvars₁, hval₁⟩ := hentry.vars
    obtain ⟨vars₂, hvars₂, hval₂⟩ := hadds'.vars
    rw [hvars₂, hvars₁]
    intro v hv
    rcases List.mem_append.mp hv with hv | hv
    · exact hval₁ v hv
    · exact hval₂ v hv
  · rw [hblocks, List.forall_mem_cons, List.forall_mem_cons, List.forall_mem_append]
    refine ⟨hentry.terminated _, ?_, hvariants.terminated, fun b hb => ?_⟩
    · show Block.terminated ⟨matchLbl, s₁.instructions⟩ = true
      rw [hentry.instructions]
      rfl
    · obtain rfl := List.mem_singleton.mp hb
      rfl
  · rw [hblocks, List.forall_mem_cons, List.forall_mem_cons, List.forall_mem_append, ← hblocks]
    refine ⟨fun t ht => hmem t ?_, fun t ht => hmem t ?_, fun b hb t ht => hmem t ?_,
      fun b hb t ht => ?_⟩
    · rw [hentry.targets] at ht
      simp only [List.mem_cons, List.not_mem_nil, or_false] at ht
      exact ht.imp_right .inl
    · have htargets : second.targets = lbls ++ [falseLbl] := by
        show Block.targets ⟨matchLbl, s₁.instructions⟩ = _
        have hsnd : ((List.range variants.length).zip lbls).map (·.2) = lbls := by
          apply List.map_snd_zip
          rw [hlength, List.length_range]
        rw [hentry.instructions, ← hsnd]
        exact List.append_nil _
      rw [htargets, List.mem_append] at ht
      rcases ht with ht | ht
      · exact .inr (.inr (hvariants.all ht))
      · exact .inr (.inl (List.mem_singleton.mp ht))
    · exact .inr (hvariants.targets b hb t ht)
    · obtain rfl := List.mem_singleton.mp hb
      cases ht
  · intro hfit hfew X p env R l a b v w hanswers ha hb hv hw
    cases hv with
    | leaf hid => cases hid
    | enum hv hd hls hvs =>
    cases hw with
    | leaf hid => cases hid
    | enum hw he hls' hws =>
    rename_i v ls d vs w ls' e ws
    have hfew : variants.length ≤ 256 := of_decide_eq_true hfew
    obtain ⟨hdlt, -⟩ := List.getElem?_eq_some_iff.mp hv
    obtain ⟨helt, -⟩ := List.getElem?_eq_some_iff.mp hw
    rw [Nat.mod_eq_of_lt (hdlt.trans_le hfew)] at hd
    rw [Nat.mod_eq_of_lt (helt.trans_le hfew)] at he
    subst hd he
    have hlt := offsetsFit_enum.mp hfit v (List.mem_of_getElem? hv) ls hls
    have hfound := found_of_nodup hnodup
    have hbs : Found s₃.allBlocks bs := fun b hb => hfound b (by rw [hblocks]; simp [hb])
    have hsecond : findBlock s₃.allBlocks matchLbl = some s₁.instructions :=
      hfound second (by rw [hblocks]; simp)
    have hfalse : findBlock s₃.allBlocks falseLbl = some falseBlock.instructions :=
      hfound falseBlock (by rw [hblocks]; simp)
    rw [Value.eq]
    by_cases heq : l.mem a = l.mem b
    · rw [← heq] at hw
      obtain rfl := Option.some.inj (hv.symm.trans hw)
      obtain rfl := Option.some.inj (hls.symm.trans hls')
      have hlbl : lbls[(l.mem a).toNat]? = some (ctx.labels + 4 + (l.mem a).toNat) := by
        simp [lbls, hdlt]
      obtain ⟨is, his⟩ := hbs.find (hvariants.all (List.mem_of_getElem? hlbl))
      have hgo := hentry.goes p env s₃.allBlocks l a b is falseBlock.instructions hsecond hfalse ha hb
        fun _ => ⟨hdlt, his⟩
      rw [if_pos heq] at hgo
      refine hgo.trans hentry.scope hentry.tmpIdx fun l' hkept hmem' => ?_
      rw [← hmem'] at hvs hws
      have ha' := (hkept.operand (hleft ctx.lowerer)).trans ha
      have hb' := (hkept.operand (hright ctx.lowerer)).trans hb
      have hanswers' : ∀ t ∈ v.2, isGenerated t → EqAnswers rt R p t :=
        fun t ht => hanswers t (List.mem_flatMap.mpr ⟨v, List.mem_of_getElem? hv, ht⟩)
      have hgoes := hvariants.goes X p env R s₃.allBlocks l' a b _ _ v ls vs ws is
        falseBlock.instructions hlbl hv hanswers' hbs his hfalse ha' hb' hls hlt hvs hws
      rw [heq, decide_eq_true rfl, Bool.true_and]
      cases heqAll : Value.eqAll rt R.eq vs ws <;> rw [heqAll] at hgoes <;> exact hgoes
    · have hgo := hentry.goes p env s₃.allBlocks l a b [] falseBlock.instructions hsecond hfalse ha hb
        fun h => absurd h heq
      have hne : (l.mem a).toNat ≠ (l.mem b).toNat := fun h => heq (UInt8.toNat_inj.mp h)
      rw [if_neg heq] at hgo
      rw [decide_eq_false hne, Bool.false_and]
      exact hgo

end Roto.Lir
