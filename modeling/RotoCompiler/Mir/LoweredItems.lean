import RotoCompiler.Mir.MatchControlFlow
import Mathlib.Data.List.Flatten

/-!
# Lowered items are flow graphs
-/

namespace Roto.Mir
open LaidCode
open Ast (Expr MatchArm Step)
open TypeChecker (Typ)

namespace Lowering

variable {env : LowerEnv} {alive : Prop}

/-! ### Blocks and expressions -/

section Statements
variable {ss : List (Option (Meta Identifier) × Part)} {b : BlockPart}

theorem straight_stmts (h : ∀ s ∈ ss, Straight alive s.2.2) : Straight alive (stmts env ss) := by
  induction ss with
  | nil => exact Straight.pure ()
  | cons s ss ih =>
    obtain ⟨hs, hss⟩ := List.forall_mem_cons.mp h
    have hstmt : Straight alive (stmt env s) := by
      unfold stmt
      cases s.1 with
      | none =>
        exact hs.bind fun value => (Straight.plain (Plain.assignToVar _ _)).bind fun value =>
          Straight.plain (Plain.dropVar _)
      | some ident =>
        exact hs.bind fun val => (Straight.quiet (Quiet.addLiveVariable _ _)).bind fun _ =>
          Straight.plain (Plain.doAssign _ _ _)
    exact hstmt.bind fun _ => ih hss

theorem straight_block (id : MetaId) {last : Option Part} (hss : ∀ s ∈ ss, Straight alive s.2.2)
    (hlast : ∀ e ∈ last, Straight alive e.2) : Straight alive (block env id ss last) := by
  have hvalue : Straight alive (lastValue last) := by
    cases last with
    | none => exact Straight.pure _
    | some e => exact hlast e rfl
  refine (Straight.quiet Quiet.pushSlot).bind fun _ => (straight_stmts hss).bind fun _ =>
    hvalue.bind fun op => (Straight.plain (Plain.assignToVar _ _)).bind fun finalVar =>
    (Straight.quiet (Quiet.removeLiveVariable _)).bind fun _ =>
    (Straight.quiet Quiet.popSlot).bind fun toDrop => ?_
  refine (Straight.plain (Plain.emitAll ?_)).bind fun _ => Straight.pure _
  intro i hi
  split_ifs at hi
  · cases hi
  · exact Plain.dropsOf i hi

theorem straight_blockExpr (h : Straight alive b.2) : Straight alive (blockExpr env b) :=
  h.bind fun _ => (Straight.quiet Quiet.undroppedTmp).bind fun _ =>
    (Straight.plain (Plain.emit rfl)).bind fun _ =>
    (Straight.quiet (Quiet.addLiveVariable _ _)).bind fun _ => Straight.pure _

end Statements

end Lowering

/-- All matches in a tree are covered. -/
def exprCovered (env : LowerEnv) (e : Expr) : Bool :=
  e.everywhere (Lowering.matchCovered env) fun _ => true

def blockCovered (env : LowerEnv) (b : Ast.Block) : Bool :=
  b.everywhere (Lowering.matchCovered env) fun _ => true

namespace Lowering

theorem straight_step (env : LowerEnv) :
    Step (fun e => ∀ alive : Prop, (alive → exprCovered env e = true) →
        Straight alive (e.fold (alg env)))
      (fun b => ∀ alive : Prop, (alive → blockCovered env b = true) →
        Straight alive (b.fold (alg env))) where
  returnE id kind e he alive h := by
    rw [Expr.fold, Expr.foldOption_eq]
    apply straight_returnE
    intro x hx
    obtain ⟨y, hy, rfl⟩ := Option.map_eq_some_iff.mp hx
    exact he y hy alive fun ha => (Expr.everywhere_return.mp (h ha)).2 y hy
  literal id l alive _ := Straight.pure _
  block id b hb alive h :=
    straight_blockExpr (hb alive fun ha => (Expr.everywhere_block.mp (h ha)).2)
  matchE id e arms he hguards hbodies alive h := by
    rw [Expr.fold, Expr.foldArms_eq]
    refine straight_matchE id (he alive fun ha => (Expr.everywhere_match.mp (h ha)).2.1) ?_ ?_ ?_
    · intro ha variants ds hty hds
      rw [List.mapM_map] at hds
      rw [← matchCovered_ends (Expr.everywhere_match.mp (h ha)).1 hty hds, List.map_map]
      congr 2
      apply List.map_congr_left
      intro arm _
      cases hg : arm.guard <;> simp [hg]
    · intro x hx y hy
      obtain ⟨arm, harm, rfl⟩ := List.mem_map.mp hx
      obtain ⟨g, hg, rfl⟩ := Option.map_eq_some_iff.mp hy
      exact hguards arm harm g hg alive fun ha =>
        (Expr.everywhere_match.mp (h ha)).2.2.1 arm harm g hg
    · intro x hx
      obtain ⟨arm, harm, rfl⟩ := List.mem_map.mp hx
      exact hbodies arm harm alive fun ha => (Expr.everywhere_match.mp (h ha)).2.2.2 arm harm
  functionCall id f args hf hargs alive h := by
    rw [Expr.fold, Expr.foldReceiver_eq, Expr.foldList_eq]
    apply straight_functionCall
    · intro x hx
      obtain ⟨y, hy, rfl⟩ := Option.map_eq_some_iff.mp hx
      exact hf y hy alive fun ha => (Expr.everywhere_functionCall.mp (h ha)).2.1 y hy
    · intro x hx
      obtain ⟨y, hy, rfl⟩ := List.mem_map.mp hx
      exact hargs y hy alive fun ha => (Expr.everywhere_functionCall.mp (h ha)).2.2 y hy
  access id e field he alive h :=
    straight_access (he alive fun ha => (Expr.everywhere_access.mp (h ha)).2) field
  path id p alive _ := straight_path id p
  record id fields hfields alive h := by
    rw [Expr.fold, Expr.foldFields_eq]
    apply straight_record
    intro x hx
    obtain ⟨y, hy, rfl⟩ := List.mem_map.mp hx
    exact hfields y hy alive fun ha => (Expr.everywhere_record.mp (h ha)).2 y hy
  typedRecord id p fields hfields alive h := by
    rw [Expr.fold, Expr.foldFields_eq]
    apply straight_record
    intro x hx
    obtain ⟨y, hy, rfl⟩ := List.mem_map.mp hx
    exact hfields y hy alive fun ha => (Expr.everywhere_typedRecord.mp (h ha)).2 y hy
  list id es hes alive h := by
    rw [Expr.fold, Expr.foldList_eq]
    apply straight_list
    intro x hx
    obtain ⟨y, hy, rfl⟩ := List.mem_map.mp hx
    exact hes y hy alive fun ha => (Expr.everywhere_list.mp (h ha)).2 y hy
  not id e he alive h := straight_not (he alive fun ha => (Expr.everywhere_not.mp (h ha)).2)
  assign id p e he alive h :=
    straight_assign p (he alive fun ha => (Expr.everywhere_assign.mp (h ha)).2)
  compoundAssign id i j p op e he alive h := by
    apply straight_assign
    apply straight_binop
    · exact straight_path j p
    · exact he alive fun ha => (Expr.everywhere_compoundAssign.mp (h ha)).2
  binOp id l op r hl hr alive h :=
    straight_binop op (hl alive fun ha => (Expr.everywhere_binOp.mp (h ha)).2.1)
      (hr alive fun ha => (Expr.everywhere_binOp.mp (h ha)).2.2)
  negate id e he alive h :=
    straight_negate (he alive fun ha => (Expr.everywhere_negate.mp (h ha)).2)
  ifElse id c t e hc ht he alive h := by
    rw [Expr.fold, Ast.Block.foldOption_eq]
    refine straight_ifElse id (hc alive fun ha => (Expr.everywhere_ifElse.mp (h ha)).2.1)
      (ht alive fun ha => (Expr.everywhere_ifElse.mp (h ha)).2.2.1) ?_
    intro x hx
    obtain ⟨y, hy, rfl⟩ := Option.map_eq_some_iff.mp hx
    exact he y hy alive fun ha => (Expr.everywhere_ifElse.mp (h ha)).2.2.2 y hy
  whileE id c b hc hb alive h :=
    straight_whileE (hc alive fun ha => (Expr.everywhere_while.mp (h ha)).2.1)
      (hb alive fun ha => (Expr.everywhere_while.mp (h ha)).2.2)
  forE id name e b he hb alive h :=
    straight_forE name (he alive fun ha => (Expr.everywhere_for.mp (h ha)).2.1)
      (hb alive fun ha => (Expr.everywhere_for.mp (h ha)).2.2)
  questionMark id e he alive h :=
    straight_questionMark (he alive fun ha => (Expr.everywhere_questionMark.mp (h ha)).2)
  fString id parts hparts alive h := by
    rw [Expr.fold, Expr.foldParts_eq]
    apply straight_fString
    intro x hx e he
    obtain ⟨part, hpart, rfl⟩ := List.mem_map.mp hx
    cases part with
    | string id text => cases he
    | expr id e' =>
      rw [← Sum.inr.inj he]
      exact hparts _ hpart e' rfl alive fun ha =>
        (Expr.everywhere_fString.mp (h ha)).2 _ hpart e' rfl
  body id ss last hss hlast alive h := by
    rw [Ast.Block.fold, Expr.foldStmts_eq, Expr.foldOption_eq]
    apply straight_block
    · intro x hx
      obtain ⟨y, hy, rfl⟩ := List.mem_map.mp hx
      exact hss y hy alive fun ha => (Ast.Block.everywhere_mk.mp (h ha)).2.1 y hy
    · intro x hx
      obtain ⟨y, hy, rfl⟩ := Option.map_eq_some_iff.mp hx
      exact hlast y hy alive fun ha => (Ast.Block.everywhere_mk.mp (h ha)).2.2 y hy

theorem straight_expr (e : Expr) (h : alive → exprCovered env e = true) :
    Straight alive (e.fold (alg env)) :=
  Expr.ind (straight_step env) e alive h

theorem straight_body (b : Ast.Block) (h : alive → blockCovered env b = true) :
    Straight alive (b.fold (alg env)) :=
  Ast.Block.ind (straight_step env) b alive h

/-! ### Items -/

theorem flows_functionBody (params : List (Meta Identifier)) (returnType : Ty) (body : Ast.Block)
    (h : alive → blockCovered env body = true) :
    Flows alive ∅ ∅ false true (functionBody env params returnType body) :=
  Lays.andThen (flows_quiet (Quiet.addParameters env params)) fun _ =>
    Lays.andThen (straight_body body h ∅) fun _ =>
    Lays.andThen (flows_plain (Plain.assignToVar _ _)) fun t =>
    Lays.andThen (flows_plain Plain.dropSlot) fun _ => flows_ret t

theorem flows_constantBody (ty : Ty) (e : Expr) (h : alive → exprCovered env e = true) :
    Flows alive ∅ ∅ false true (constantBody env ty e) :=
  Lays.andThen (flows_quiet Quiet.pushSlot) fun _ =>
    Lays.andThen (straight_expr e h ∅) fun _ =>
    Lays.andThen (flows_plain (Plain.assignToVar _ _)) fun t =>
    Lays.andThen (flows_quiet (Quiet.removeLiveVariable _)) fun _ =>
    Lays.andThen (flows_plain Plain.dropSlot) fun _ => flows_ret t

end Lowering

/-- The blocks of an item are labelled from the store, each has an end, and those that are
reachable lead to blocks of the item if it is `alive`. -/
structure Built (alive : Prop) (store store' : LabelStore) (item : Item) : Prop where
  le : store.length ≤ store'.length
  entry : item.blocks.head?.map (·.label) = some store.length
  distinct : (item.blocks.map (·.label)).Nodup
  labels : ∀ l : ℕ, l ∈ item.blocks.map (·.label) → store.length ≤ l ∧ l < store'.length
  ended : ∀ b ∈ item.blocks, ∃ is i, b.instructions = is ++ [i] ∧ i.successors.isSome
  leads : alive → ∀ b ∈ item.blocks, item.Reaches b.label → ∀ i ∈ b.instructions, ∀ ls,
    i.successors = some ls → ∀ l ∈ ls, l ∈ item.blocks.map (·.label)

theorem Built.closed {alive : Prop} {store store' : LabelStore} {item : Item}
    (h : Built alive store store' item) (ha : alive) : item.Closed where
  entry := by
    intro hnil
    have hentry := h.entry
    rw [hnil] at hentry
    cases hentry
  distinct := h.distinct
  terminated b hb _ := by
    obtain ⟨is, i, his, hi⟩ := h.ended b hb
    rw [his]
    exact ⟨i, List.mem_append_right is (List.mem_singleton_self i), hi⟩
  labels := h.leads ha

/-- What is reached is live, if the entry block is. -/
theorem Item.Reaches.live {item : Item} {live : Set ℕ}
    (hentry : ∀ b ∈ item.blocks.head?, b.label ∈ live)
    (hkeeps : ∀ b ∈ item.blocks, b.label ∈ live → ∀ i ∈ b.instructions, ∀ ls,
      i.successors = some ls → ∀ l ∈ ls, l ∈ live) {l : LabelRef} (h : item.Reaches l) :
    l ∈ live := by
  obtain ⟨entry, hhead, hpath⟩ := h
  induction hpath with
  | refl => exact hentry entry hhead
  | tail _ hedge ih =>
    obtain ⟨is, ls, hcode, hexits, hl⟩ := hedge
    obtain ⟨b, hfind, rfl⟩ := Option.map_eq_some_iff.mp hcode
    have hlabel := List.find?_some hfind
    obtain ⟨i, hi, hsucc⟩ := Trimming.exits_subset _ hexits
    apply hkeeps b (List.mem_of_find?_eq_some hfind) _ i hi ls hsucc _ hl
    rw [eq_of_beq hlabel]
    exact ih

namespace Lowering

/-- An item from its entry block. -/
theorem built_of_flows {m : Lower Unit} (h : Flows alive ∅ ∅ false true m) {scope : ScopeRef}
    {returnType : Ty} {store : LabelStore} {a : Unit} {s : Lowering}
    (hm : m (start scope returnType store) = some (a, s)) {item : Item}
    (hitem : item.blocks = s.allBlocks) : Built alive store s.labelStore item := by
  have hlt : ∀ l ∈ (∅ : Set ℕ) ∪ ∅, l < laid.next (start scope returnType store) := by
    intro l hl
    rcases hl with hl | hl <;> exact (Set.notMem_empty l hl).elim
  obtain ⟨E, hE, hF, hsealed, hends⟩ := h _ a s hlt hm
  have hnext : laid.next (start scope returnType store) = store.length + 1 := by
    simp [laid, start, LabelStore.newLabel]
  have hevents : item.blocks.flatMap Block.events = .block store.length :: E := by
    rw [hitem]
    exact hE
  have hblocks : placed (item.blocks.flatMap Block.events) = item.blocks.map (·.label) :=
    placed_blocks Block.label Block.instructions item.blocks
  have hlabels : item.blocks.map (·.label) = store.length :: placed E := by
    rw [← hblocks, hevents]
    rfl
  have hmem : ∀ l ∈ placed E, store.length + 1 ≤ l ∧ l < s.labelStore.length := by
    intro l hl
    rcases hF.mem l hl with hl | hl
    · exact (Set.notMem_empty l hl).elim
    · rw [hnext] at hl
      exact hl
  have hle : store.length + 1 ≤ s.labelStore.length := by
    have hle := hF.le
    rw [hnext] at hle
    exact hle
  have hdistinct : (item.blocks.map (·.label)).Nodup := by
    rw [hlabels]
    refine List.nodup_cons.mpr ⟨fun hl => ?_, hF.nodup⟩
    have hl' := hmem _ hl
    omega
  have hentry : item.blocks.head?.map (·.label) = some store.length := by
    rw [← List.head?_map, hlabels]
    rfl
  refine ⟨by omega, hentry, hdistinct, ?_, ?_, ?_⟩
  · intro l hl
    rw [hlabels] at hl
    rcases List.mem_cons.mp hl with hl | hl
    · omega
    · have hl' := hmem l hl
      omega
  · have hsealed' : Sealed Instruction.successors true (item.blocks.flatMap Block.events) := by
      rw [hevents]
      exact ⟨rfl, hsealed⟩
    have hends' : ends Instruction.successors true (item.blocks.flatMap Block.events) = true := by
      rw [hevents]
      exact hends rfl
    exact (sealed_blocks Block.label Block.instructions hsealed' hends').2
  · intro ha
    obtain ⟨live, hin, -, hkeeps⟩ := hF.live ha
    have hfresh : store.length ∉ placed E := fun hl => by
      have hl' := hmem _ hl
      omega
    have hkeeps' : Keeps Instruction.successors (insert store.length live) live True
        (item.blocks.flatMap Block.events) := by
      rw [hevents, Keeps]
      apply hkeeps.imp (fun _ => trivial)
      · intro l hl hlive
        rcases hlive with hlive | hlive
        · rw [hlive] at hl
          exact absurd hl hfresh
        · exact hlive
      · intro l hl
        rcases hl with hl | hl
        · exact hl
        · exact (Set.notMem_empty l hl).elim
    have hall := (keeps_blocks Block.label Block.instructions).mp hkeeps'
    intro b hb hreach i hi ls hls l hl
    have hlive : b.label ∈ insert store.length live := by
      refine hreach.live ?_ ?_
      · intro entry hhead
        have hlabel : some entry.label = some store.length := by
          rw [← hentry, Option.mem_def.mp hhead]
          rfl
        exact Or.inl (Option.some.inj hlabel)
      · exact fun b hb hlive i hi ls hls l hl => Or.inr (hall b hb hlive i hi ls hls l hl)
    rw [hlabels]
    exact List.mem_cons_of_mem _ (hin l (hall b hb hlive i hi ls hls l hl))

end Lowering

/-! ### Programs -/

def ItemDeclaration.covered (env : LowerEnv) : ItemDeclaration → Bool
  | .filterMap _ _ body => blockCovered env body
  | .function _ _ body => blockCovered env body
  | .test _ body => blockCovered env body
  | .const _ e => exprCovered env e
  | .other => true

def Item.labels (item : Item) : List LabelRef := item.blocks.map (·.label)

namespace Lowering

theorem built_functionLike {ident : Meta Identifier} {params : List (Meta Identifier)}
    {returnType : Typ} {body : Ast.Block} {store : LabelStore} {r : Item × LabelStore}
    (hcovered : alive → blockCovered env body = true)
    (h : functionLike env ident params returnType body store = some r) :
    Built alive store r.2 r.1 := by
  obtain ⟨s, hs, h⟩ := Option.bind_eq_some_iff.mp h
  rw [← Option.some.inj h]
  exact built_of_flows (flows_functionBody params _ body hcovered) hs rfl

theorem built_constant {ident : Meta Identifier} {e : Expr} {store : LabelStore}
    {r : Item × LabelStore} (hcovered : alive → exprCovered env e = true)
    (h : constant env ident e store = some r) : Built alive store r.2 r.1 := by
  obtain ⟨s, hs, h⟩ := Option.bind_eq_some_iff.mp h
  rw [← Option.some.inj h]
  exact built_of_flows (flows_constantBody _ e hcovered) hs rfl

theorem built_declaration {d : ItemDeclaration} {store : LabelStore}
    {r : Option (ResolvedName × Item) × LabelStore}
    (hcovered : alive → d.covered env = true) (h : declaration env store d = some r) :
    store.length ≤ r.2.length ∧ ∀ x ∈ r.1, Built alive store r.2 x.2 := by
  have hone {name : ResolvedName} {x : Item × LabelStore} (hx : Built alive store x.2 x.1)
      (hr : (some (name, x.1), x.2) = r) :
      store.length ≤ r.2.length ∧ ∀ y ∈ r.1, Built alive store r.2 y.2 := by
    rw [← hr]
    refine ⟨hx.le, fun y hy => ?_⟩
    rw [← Option.some.inj hy]
    exact hx
  cases d with
  | filterMap ident params body =>
    obtain ⟨x, hx, h⟩ := Option.bind_eq_some_iff.mp h
    exact hone (built_functionLike hcovered hx) (Option.some.inj h)
  | function ident params body =>
    obtain ⟨dec, -, h⟩ := Option.bind_eq_some_iff.mp h
    obtain ⟨func, -, h⟩ := Option.bind_eq_some_iff.mp h
    obtain ⟨x, hx, h⟩ := Option.bind_eq_some_iff.mp h
    exact hone (built_functionLike hcovered hx) (Option.some.inj h)
  | test ident body =>
    obtain ⟨x, hx, h⟩ := Option.bind_eq_some_iff.mp h
    exact hone (built_functionLike hcovered hx) (Option.some.inj h)
  | const ident e =>
    obtain ⟨x, hx, h⟩ := Option.bind_eq_some_iff.mp h
    exact hone (built_constant hcovered hx) (Option.some.inj h)
  | other =>
    rw [← Option.some.inj h]
    refine ⟨le_rfl, fun y hy => ?_⟩
    cases hy

/-- The items so far have labels of the store, each its own. -/
structure Apart (alive : Prop) (store : LabelStore) (items : List Item) : Prop where
  nodup : (items.flatMap Item.labels).Nodup
  below : ∀ l : ℕ, l ∈ items.flatMap Item.labels → l < store.length
  built : ∀ item ∈ items, ∃ store₀ store₁, Built alive store₀ store₁ item

theorem Apart.cons {store store' : LabelStore} {items : List Item} {item : Item}
    (h : Apart alive store items) (hitem : Built alive store store' item) :
    Apart alive store' (item :: items) where
  nodup := by
    rw [List.flatMap_cons]
    refine List.nodup_append.mpr ⟨hitem.distinct, h.nodup, ?_⟩
    intro a ha b hb hab
    have hle := (hitem.labels a ha).1
    have hlt := h.below b hb
    exact absurd (hab ▸ hle) (Nat.not_le.mpr hlt)
  below l hl := by
    have hle := hitem.le
    rw [List.flatMap_cons] at hl
    rcases List.mem_append.mp hl with hl | hl
    · exact (hitem.labels l hl).2
    · have hlt := h.below l hl
      omega
  built := List.forall_mem_cons.mpr ⟨⟨store, store', hitem⟩, h.built⟩

theorem apart_declarations {ds : List ItemDeclaration} {store : LabelStore}
    {items : List (ResolvedName × Item)} {r : List (ResolvedName × Item) × LabelStore}
    (hcovered : alive → ∀ d ∈ ds, d.covered env = true)
    (hitems : Apart alive store (items.map (·.2)))
    (h : declarations env store items ds = some r) : Apart alive r.2 (r.1.map (·.2)) := by
  induction ds generalizing store items with
  | nil =>
    rw [← Option.some.inj h]
    exact hitems
  | cons d ds ih =>
    obtain ⟨x, hx, h⟩ := Option.bind_eq_some_iff.mp h
    obtain ⟨hle, hbuilt⟩ := built_declaration (fun ha => hcovered ha d List.mem_cons_self) hx
    refine ih (fun ha d' hd' => hcovered ha d' (List.mem_cons_of_mem d hd')) ?_ h
    cases hx₁ : x.1 with
    | none =>
      refine ⟨hitems.nodup, ?_, hitems.built⟩
      intro l hl
      have hlt := hitems.below l hl
      omega
    | some y => exact hitems.cons (hbuilt y hx₁)

/-- No item is taken out twice. -/
theorem inOrder_subperm (order : List ResolvedName) (items : List (ResolvedName × Item)) :
    (inOrder order items).Subperm (items.map (·.2)) := by
  induction order generalizing items with
  | nil => exact List.nil_subperm
  | cons n order ih =>
    rw [inOrder]
    cases hlookup : items.lookup n with
    | none => exact ih items
    | some item =>
      obtain ⟨before, after, rfl, -⟩ := List.lookup_eq_some_iff.mp hlookup
      have hfilter : (before ++ (n, item) :: after).filter (fun i => i.1 ≠ n) =
          (before ++ after).filter fun i => i.1 ≠ n := by
        simp
      have hrest : (inOrder order ((before ++ (n, item) :: after).filter fun i => i.1 ≠ n)).Subperm
          ((before ++ after).map (·.2)) := by
        rw [hfilter]
        exact (ih _).trans (List.filter_sublist.map _).subperm
      have hperm : ((before ++ (n, item) :: after).map (·.2)).Perm
          (item :: (before ++ after).map (·.2)) := by
        rw [List.map_append, List.map_cons, List.map_append]
        exact List.perm_middle
      exact ((List.subperm_cons item).mpr hrest).trans hperm.symm.subperm

theorem Apart.subperm {store : LabelStore} {items items' : List Item}
    (h : Apart alive store items) (hsub : items'.Subperm items) : Apart alive store items' := by
  obtain ⟨items₁, hperm, hsublist⟩ := hsub
  have hlabels : (items₁.flatMap Item.labels).Perm (items'.flatMap Item.labels) :=
    hperm.flatMap_right _
  have hsub : (items₁.flatMap Item.labels).Sublist (items.flatMap Item.labels) :=
    hsublist.flatMap _
  constructor
  · exact hlabels.nodup_iff.mp (h.nodup.sublist hsub)
  · exact fun l hl => h.below l (hsub.subset (hlabels.mem_iff.mpr hl))
  · exact fun item hitem => h.built item (hsublist.subset (hperm.mem_iff.mpr hitem))

theorem apart_tree {ds : List ItemDeclaration} {order : List ResolvedName} {store : LabelStore}
    {r : List Item × LabelStore} (hcovered : alive → ∀ d ∈ ds, d.covered env = true)
    (h : tree env ds order store = some r) : Apart alive r.2 r.1 := by
  obtain ⟨x, hx, rfl⟩ := Option.map_eq_some_iff.mp h
  have hnil : Apart alive store (([] : List (ResolvedName × Item)).map (·.2)) := by
    constructor
    · exact List.nodup_nil
    · intro l hl
      cases hl
    · intro item hitem
      cases hitem
  exact (apart_declarations hcovered hnil hx).subperm (inOrder_subperm order x.1)

/-- In the lowered program no two blocks have the same label, the items start with a block, and
every block ends in an instruction that leads on. -/
theorem lowered_blocks {env : LowerEnv} {ds : List ItemDeclaration} {order : List ResolvedName}
    {store : LabelStore} {r : List Item × LabelStore} (h : tree env ds order store = some r) :
    (r.1.flatMap Item.labels).Nodup ∧ ∀ item ∈ r.1, item.blocks ≠ [] ∧
      ∀ b ∈ item.blocks, ∃ is i, b.instructions = is ++ [i] ∧ i.successors.isSome := by
  have hapart : Apart False r.2 r.1 := apart_tree (fun hf => hf.elim) h
  refine ⟨hapart.nodup, fun item hitem => ?_⟩
  obtain ⟨store₀, store₁, hbuilt⟩ := hapart.built item hitem
  refine ⟨?_, hbuilt.ended⟩
  intro hnil
  have hentry := hbuilt.entry
  rw [hnil] at hentry
  cases hentry

theorem noScopes_named (n : ResolvedName) (d : TypeChecker.Declaration)
    (h : (none : Option TypeChecker.Declaration) = some d) : d.name = n := by
  cases h

theorem noScopes_older (i : ℕ) (s : TypeChecker.Scope) (p : ScopeRef)
    (h : ([] : List TypeChecker.Scope)[i]? = some s) (_ : s.parent = some p) : p < i := by
  cases h

def noScopes : TypeChecker.ScopeGraph where
  declarations _ := none
  scopes := []
  named := noScopes_named
  older := noScopes_older
  parentModules _ h := absurd h List.not_mem_nil

def switchTy : Typ → Ty
  | .name _ _ => .enum [("On", []), ("Off", [])]
  | _ => .unit

/-- The expression with the id 1 is a local variable of a type with two variants. -/
def switchEnv : LowerEnv where
  info :=
    { types := []
      typeOf := fun id => if id = 1 then .named "Switch" [] else .unit
      resolvedName := fun _ => ⟨0, "flip"⟩
      functionScope := fun _ => 0
      function := fun _ => ⟨⟨[], [], .unit⟩, ⟨0, "flip"⟩, .roto⟩
      pathKind := fun _ => .value ⟨⟨1, "x"⟩, .local, .named "Switch" [], []⟩
      diverges := fun _ => false
      convert := switchTy }
  graph := noScopes
  payloads := ⟨fun _ => none, fun _ => none, fun _ => none⟩
  types := []
  vtables _ := []
  rotoString := 0
  ipPrefix := 1
  erasedList := 2
  signatures _ := ⟨[], [], .unit⟩
  fullName n := n.ident
  order :=
    { discriminants := fun _ ds => ds
      cases := fun _ cs => cs
      discriminants_perm := fun _ ds => List.Perm.refl ds
      cases_perm := fun _ cs => List.Perm.refl cs }

/-- `test flip { match x { On | true -> return, .. } }`, with one more arm. -/
def flip (last : MatchArm) : ItemDeclaration :=
  .test ⟨"flip", 0⟩ (.mk 0 [] (some (.match 2 (.path 1 ⟨3, []⟩)
    [.mk (.enumVariant ⟨"On", 4⟩ none) (some (.literal 5 ⟨.bool true, 6⟩))
      (.mk 7 [] (some (.return 8 .return none))), last])))

/-- `_ -> {}`. -/
def elseArm : MatchArm := .mk .underscore none (.mk 9 [] none)

theorem flip_lowered :
    (tree switchEnv [flip elseArm] [⟨0, "flip"⟩] []).isSome = true := by decide +kernel

theorem lowered_blocks_flip : ∃ r, tree switchEnv [flip elseArm] [⟨0, "flip"⟩] [] = some r ∧
    r.1.map Item.labels = [[0, 4, 7, 9, 8, 2, 11, 5, 6, 3]] ∧ (r.1.flatMap Item.labels).Nodup ∧
    ∀ item ∈ r.1, item.blocks ≠ [] ∧
      ∀ b ∈ item.blocks, ∃ is i, b.instructions = is ++ [i] ∧ i.successors.isSome := by
  have h := (Option.some_get flip_lowered).symm
  exact ⟨_, h, by decide +kernel, lowered_blocks h⟩

/-- If all matches are covered, dead code elimination ends on the lowered program, with flow
graphs that do what the items did. -/
theorem lowered_then_eliminated {env : LowerEnv} {ds : List ItemDeclaration}
    {order : List ResolvedName} {store : LabelStore} {r : List Item × LabelStore}
    (hcovered : ∀ d ∈ ds, d.covered env = true) (h : tree env ds order store = some r) {fuel : ℕ}
    (hfuel : ∀ item ∈ r.1, item.blocks.length < fuel) :
    ∃ items', eliminateDeadCode fuel r.1 = some items' ∧ (items'.flatMap Item.labels).Nodup ∧
      List.Forall₂ (fun item item' => item'.Graph ∧ item'.blocks.head?.map (·.label) =
          item.blocks.head?.map (·.label) ∧ item' = { item with blocks := item'.blocks } ∧
        ∀ (A H : Type) (m : Machine A H) (number : Held A → Option ℕ) (n : ℕ) (s : State A H),
          item'.trace m number n s = item.trace m number n s) r.1 items' := by
  have hapart : Apart True r.2 r.1 := apart_tree (fun _ => hcovered) h
  have hclosed : ∀ item ∈ r.1, item.Closed := by
    intro item hitem
    obtain ⟨store₀, store₁, hbuilt⟩ := hapart.built item hitem
    exact hbuilt.closed trivial
  refine ⟨r.1.map Item.trimmed,
    eliminateDeadCode_eq fun item hitem => ⟨hclosed item hitem, hfuel item hitem⟩, ?_, ?_⟩
  · rw [List.flatMap_map]
    refine hapart.nodup.sublist (List.Sublist.flatMap_right _ fun item _ => ?_)
    unfold Item.labels Item.trimmed
    rw [List.map_map]
    exact List.filter_sublist.map _
  · rw [List.forall₂_map_right_iff, List.forall₂_same]
    intro item hitem
    refine ⟨(hclosed item hitem).graph, ?_, rfl, ?_⟩
    · rw [item.trimmed_head, Option.map_map]
      rfl
    · exact fun A H m number n s => item.trimmed_trace m number n s

theorem lowered_then_eliminated_flip : ∃ r items',
    tree switchEnv [flip elseArm] [⟨0, "flip"⟩] [] = some r ∧
    eliminateDeadCode 11 r.1 = some items' ∧
    items'.map (fun item => item.blocks.map fun b => (b.label, b.instructions.length)) =
      [[(0, 3), (4, 1), (7, 2), (9, 1), (8, 1), (2, 1), (11, 1), (5, 4), (6, 3), (3, 3)]] ∧
    List.Forall₂ (fun _ item' => item'.Graph) r.1 items' := by
  have h := (Option.some_get flip_lowered).symm
  have hcovered : ∀ d ∈ [flip elseArm], d.covered switchEnv = true := by decide +kernel
  have hfuel : ∀ item ∈ ((tree switchEnv [flip elseArm] [⟨0, "flip"⟩] []).get flip_lowered).1,
      item.blocks.length < 11 := by decide +kernel
  obtain ⟨items', helim, -, hitems⟩ := lowered_then_eliminated hcovered h hfuel
  refine ⟨_, items', h, helim, ?_, hitems.imp fun _ _ hgraph => hgraph.1⟩
  have hrun : (eliminateDeadCode 11 (((tree switchEnv [flip elseArm]
      [⟨0, "flip"⟩] []).get flip_lowered).1)).map
      (fun items => items.map fun item =>
        item.blocks.map fun b => (b.label, b.instructions.length)) =
      some [[(0, 3), (4, 1), (7, 2), (9, 1), (8, 1), (2, 1), (11, 1), (5, 4), (6, 3), (3, 3)]] := by
    decide +kernel
  rw [helim] at hrun
  exact Option.some.inj hrun

-- the pass fails on an accepted match in which all arms for `_` have guards
example : (tree switchEnv [flip (.mk .underscore (some (.literal 5 ⟨.bool true, 6⟩)) (.mk 9 [] none))]
    [⟨0, "flip"⟩] []).map (fun r => (eliminateDeadCode 20 r.1).isSome) = some false := by
  decide +kernel

end Lowering

end Roto.Mir
