import Mathlib.Order.Fin.Basic
import TileSelect.Proofs.Expansion.Renumbering
import TileSelect.Proofs.Selection.Alone
import TileSelect.Proofs.Selection.Order
import TileSelect.Proofs.Selection.Pipeline
/-!
Selection does not depend on how nodes are numbered.

Sets of nodes are kept in ascending order, and the walk along dependencies goes through nodes in an
order of its own, so a run on a renumbered block looks at other nodes first. What it arrives at is
the same, and the stages of the pipeline say why one by one: lowering and matching commute with
renaming, the verdict on a tile is a statement about the graph, and two tiles do the same exactly
if they do under new names. So the tiles kept are the same tiles in the same order, with the same
parts; only their nodes have new names.

The log is left out: a rejection names the first conflict that was found, and which one comes first
does depend on the numbers.
-/

set_option autoImplicit false

namespace TileSelect

open Relation

variable {f : NodeId → NodeId} {b b' : Block}

/-! ## Lowerings -/

namespace Lowering

variable {α α' β β' : Type}

/-- Steps of a lowering that correspond, one after the other. Both attempts fail, or both succeed
with results that correspond, and these go on to the next steps. -/
theorem renamed_bind {view : α → α'} {view' : β → β'} {x : Attempted α} {x' : Attempted α'}
    {k : α → Attempted β} {k' : α' → Attempted β'}
    (hx : Renamed f (Option.map view) x.run x'.run)
    (hk : ∀ a, Renamed f (Option.map view') (k a).run (k' (view a)).run) :
    Renamed f (Option.map view') (x >>= k).run (x' >>= k').run := by
  rw [OptionT.run_bind, OptionT.run_bind]
  refine Renamed.bind hx fun o => ?_
  cases o with
  | none => exact .pure rfl
  | some a => exact hk a

/-- A part that is given is the same after renumbering. -/
theorem renamed_given {view : α → α'} {o : Option α} {o' : Option α'} (h : o' = o.map view) :
    Renamed f (Option.map view) (given o).run (given o').run :=
  .pure h

/-- In particular, if it does not depend on the numbers of nodes. -/
theorem renamed_given_self (o : Option α) :
    Renamed f (Option.map id) (given o).run (given o).run := by
  refine renamed_given ?_
  rw [Option.map_id, id]

/-- The operand for a node is the same under its other number, since values keep theirs. -/
theorem renamed_operand (hr : b.Renumbers f b') (x : NodeId) :
    Renamed f (Option.map id) (operand b x).run (operand b' (f x)).run := by
  refine Renamed.bind (hr.node x) fun n => .pure ?_
  rw [hr.valueOf?, Option.map_id, id]

/-- A fixed lowering is renamed along with its node and what it reads. -/
theorem tile_rename (hf : Function.Injective f) (root : NodeId) (kind : IntrinsicKind)
    (covered inputs : List NodeId) (parts : List Part) :
    (tile root kind covered inputs parts).rename f
      = tile (f root) kind (covered.map f) (inputs.map f) parts := by
  simp only [tile, Tile.rename, NodeSet.map_diff hf, NodeSet.map_ofList]

section Kinds

variable (hr : b.Renumbers f b') (x : NodeId) (n : Node)
include hr

/-- An argument is lowered to the same parts under its other number, since these name only its value
and its place in the frame. -/
theorem arg_renamed :
    arg b' (f x) (n.rename f) = (arg b x n).map (List.map (Tile.rename f)) := by
  unfold arg
  rw [hr.valueOf?]
  dsimp only [Node.rename]
  split
  · simp only [Option.bind_eq_bind, Option.map_bind, Function.comp_def, Option.pure_def,
      apply_ite (Option.map (List.map (Tile.rename f))), Option.map_some, List.map_cons,
      List.map_nil, tile_rename hr.injective]
  · rfl

theorem constant_renamed :
    constant b' (f x) (n.rename f) = (constant b x n).map (List.map (Tile.rename f)) := by
  unfold constant constantOperand?
  rw [hr.valueOf?, hr.typeOf?]
  simp only [Node.rename, Option.bind_eq_bind, Option.map_bind, Function.comp_def, Option.pure_def,
    apply_ite (Option.map (List.map (Tile.rename f))), Option.map_some, List.map_cons,
    List.map_nil, tile_rename hr.injective]

theorem slot_renamed :
    slot b' (f x) (n.rename f) = (slot b x n).map (List.map (Tile.rename f)) := by
  unfold slot
  rw [hr.valueOf?]
  dsimp only [Node.rename]
  split
  · simp only [Option.bind_eq_bind, Option.map_bind, Function.comp_def, Option.pure_def,
      Option.map_some, List.map_cons, List.map_nil, tile_rename hr.injective]
  · rfl

theorem jump_renamed : jump (f x) (n.rename f) = (jump x n).map (List.map (Tile.rename f)) := by
  have htargets : (n.rename f).targets = n.targets := rfl
  rw [jump, jump, htargets]
  cases n.targets with
  | nil => rfl
  | cons target rest => simp only [Option.map_some, List.map_cons, List.map_nil,
      tile_rename hr.injective]

/-- The comparison of a select is looked up under its other number, and so are its operands. The
values found are the same. -/
theorem selectCompare_renamed (cond yesId noId : NodeId) (out yes no : Part) :
    Renamed f (List.map (Tile.rename f)) (selectCompare b x cond yesId noId out yes no)
      (selectCompare b' (f x) (f cond) (f yesId) (f noId) out yes no) := by
  refine (hr.node cond).bind fun comparison => ?_
  dsimp only [Node.rename]
  -- Only a comparison with two operands makes a tile, on both sides.
  cases comparison.op.condition? with
  | none => exact .pure rfl
  | some condition =>
    match comparison.inputs with
    | [y, z] =>
      refine (hr.node y).bind fun _ => (hr.node z).bind fun _ => ?_
      rw [hr.valueOf?, hr.valueOf?]
      split
      · refine .pure ?_
        rw [List.map_cons, tile_rename hr.injective]
        rfl
      · exact .pure rfl
    | [] | [y] | y :: z :: w :: rest => exact .pure rfl

/-- A select looks up its operands under their other numbers. Its parts do not name these numbers,
only what the tile covers and reads does. -/
theorem select_renamed :
    Renamed f (Option.map (List.map (Tile.rename f))) (select b x n).run
      (select b' (f x) (n.rename f)).run := by
  rw [select.eq_def, select.eq_def]
  dsimp only [Node.rename]
  -- Only a select of three operands is lowered.
  match n.inputs with
  | [cond, yesId, noId] =>
    refine renamed_bind (renamed_operand hr x) fun out => ?_
    refine renamed_bind (renamed_operand hr yesId) fun yes => ?_
    refine renamed_bind (renamed_operand hr noId) fun no => ?_
    refine renamed_bind (renamed_operand hr cond) fun condition => ?_
    have hwider : Renamed f (Option.map (List.map (Tile.rename f)))
        (liftM (selectCompare b x cond yesId noId out yes no) : Attempted (List Tile)).run
        (liftM (selectCompare b' (f x) (f cond) (f yesId) (f noId) out yes no) :
          Attempted (List Tile)).run :=
      (selectCompare_renamed hr x cond yesId noId out yes no).bind fun _ => .pure rfl
    refine renamed_bind hwider fun wider => .pure ?_
    rw [Option.map_some, List.map_cons, tile_rename hr.injective]
    rfl
  | [] | [y] | [y, z] | y :: z :: w :: v :: rest => exact renamed_given rfl

/-- Arguments are pushed in the same order, under whatever numbers they are looked up. -/
theorem pushAll_renamed (args : List NodeId) :
    Renamed f (Option.map id) (pushAll b args).run (pushAll b' (args.map f)).run := by
  induction args with
  | nil => exact .pure rfl
  | cons y args ih =>
    rw [List.map_cons, pushAll, pushAll]
    refine renamed_bind (renamed_operand hr y) fun value => ?_
    refine renamed_bind (renamed_given_self (pushParts value)) fun pushes => ?_
    exact renamed_bind ih fun rest => .pure rfl

theorem stackBytesOfAll_renamed (args : List NodeId) :
    stackBytesOfAll b' (args.map f) = stackBytesOfAll b args := by
  induction args with
  | nil => rfl
  | cons y args ih =>
    rw [List.map_cons, stackBytesOfAll, stackBytesOfAll, ih, stackBytes, stackBytes, hr.typeOf?]

/-- A call looks up its callee and its arguments under their other numbers, and makes the same parts
of them. -/
theorem call_renamed :
    Renamed f (Option.map (List.map (Tile.rename f))) (call b x n).run
      (call b' (f x) (n.rename f)).run := by
  -- The callee is a symbol or the first operand.
  have hcallee : Renamed f (Option.map (Prod.map id (Prod.map (List.map f) (List.map f))))
      (callee b n).run (callee b' (n.rename f)).run := by
    rw [callee.eq_def, callee.eq_def]
    dsimp only [Node.rename]
    split
    · exact .pure rfl
    · cases n.inputs with
      | nil => exact renamed_given rfl
      | cons first args => exact renamed_bind (renamed_operand hr first) fun _ => .pure rfl
  have hresult : resultParts b' (f x) (n.rename f) = resultParts b x n := by
    rw [resultParts.eq_def, resultParts.eq_def, hr.valueOf?]
    rfl
  refine renamed_bind hcallee fun found => ?_
  obtain ⟨target, args, read⟩ := found
  dsimp only [Prod.map, id]
  rw [← List.map_reverse]
  refine renamed_bind (pushAll_renamed hr args.reverse) fun pushes => ?_
  rw [stackBytesOfAll_renamed hr, hresult]
  refine renamed_bind (renamed_given_self (resultParts b x n)) fun result => .pure ?_
  rw [Option.map_some, List.map_cons, tile_rename hr.injective, List.map_append]
  rfl

/-- A branch looks up its condition under its other number. Its targets are labels, which have no
numbers. -/
theorem branch_renamed :
    Renamed f (Option.map (List.map (Tile.rename f))) (branch b x n).run
      (branch b' (f x) (n.rename f)).run := by
  -- The condition is the first operand, whatever its number.
  have hcondition : (n.rename f).condition? = n.condition?.map f := by
    rw [Node.condition?.eq_def, Node.condition?.eq_def]
    dsimp only [Node.rename]
    split
    · exact List.head?_map
    · rfl
  have htargets : (n.rename f).targets = n.targets := rfl
  rw [branch.eq_def, branch.eq_def, hcondition, htargets]
  cases n.condition? with
  | none => exact renamed_given rfl
  | some cond =>
    match n.targets with
    | [yes, no] =>
      refine renamed_bind (renamed_operand hr cond) fun c => .pure ?_
      rw [Option.map_some, List.map_cons, tile_rename hr.injective]
      rfl
    | [] | [l] | l :: l' :: l'' :: rest => exact renamed_given rfl

/-- A return looks up what it hands over under its other number, if there is something. -/
theorem ret_renamed :
    Renamed f (Option.map (List.map (Tile.rename f))) (ret b x n).run
      (ret b' (f x) (n.rename f)).run := by
  have hhandOver : Renamed f (Option.map id) (handOver b n.inputs).run
      (handOver b' (n.rename f).inputs).run := by
    dsimp only [Node.rename]
    match n.inputs with
    | [] => exact .pure rfl
    | [y] =>
      exact renamed_bind (renamed_operand hr y) fun value => renamed_given_self _
    | y :: z :: rest => exact renamed_given rfl
  refine renamed_bind hhandOver fun parts => .pure ?_
  rw [Option.map_some, List.map_cons, tile_rename hr.injective]
  rfl

end Kinds

end Lowering

/-- **Lowering a node of the renumbered block gives the same tiles, renamed.** Each of the ten kinds
of nodes looks up its operands, and these correspond. -/
theorem Block.Renumbers.lower (hr : b.Renumbers f b') (x : NodeId) :
    Renamed f (Option.map (List.map (Tile.rename f))) (b.lower x) (b'.lower (f x)) := by
  refine (hr.node x).bind fun n => ?_
  have hop : (n.rename f).op = n.op := rfl
  -- One case for each kind of fixed lowering; the operation decides which, and it is the same.
  rw [hop]
  split
  · exact .pure (Lowering.arg_renamed hr x n)
  · exact .pure (Lowering.constant_renamed hr x n)
  · exact .pure (Lowering.slot_renamed hr x n)
  · exact Lowering.select_renamed hr x n
  · exact Lowering.call_renamed hr x n
  · exact Lowering.call_renamed hr x n
  · exact .pure (Lowering.jump_renamed hr x n)
  · exact Lowering.branch_renamed hr x n
  · exact Lowering.ret_renamed hr x n
  · refine .pure ?_
    rw [Option.map_some, List.map_cons, Lowering.tile_rename hr.injective]
    rfl
  · exact .pure rfl

/-! ## Verdicts -/

/-- A filter whose tests all have a result is a plain filter. The accumulator of the loop is what
has been kept so far, in reverse. -/
theorem filterM_eq_filter {ε α : Type} {p : α → Except ε Bool} {test : α → Bool} {l : List α}
    (h : ∀ a ∈ l, p a = .ok (test a)) : l.filterM p = .ok (l.filter test) := by
  have haux : ∀ acc, l.filterAuxM p acc = .ok ((l.filter test).reverse ++ acc) := by
    induction l with
    | nil => exact fun acc => rfl
    | cons a l ih =>
      intro acc
      rw [List.filterAuxM, h a List.mem_cons_self, ok_bind,
        ih (fun x hx => h x (List.mem_cons_of_mem a hx)), List.filter_cons]
      cases test a <;> simp
  rw [List.filterM, haux, ok_bind, List.append_nil, List.reverse_reverse]
  rfl

namespace Block

variable {t : Tile} {x : NodeId}

/-- The covered nodes of a tile that are chained outside. -/
def leaving (b : Block) (t : Tile) : NodeSet :=
  t.covered.filter fun c =>
    (b.node? c).any fun n => n.chain.any fun target => !t.covered.contains target

/-- A node that leaves the tile is covered, and chained to something that is not. This is what the
search for such nodes tests. -/
theorem chain_of_mem_leaving {c : NodeId} (h : c ∈ b.leaving t) :
    c ∈ t.covered ∧ ∃ target, b.Chain c target ∧ ¬ target ∈ t.covered := by
  obtain ⟨hcovered, hleaves⟩ := NodeSet.mem_filter.1 h
  obtain ⟨n, hn, hany⟩ := (Option.any_eq_true _ _).1 hleaves
  obtain ⟨target, hchain, htarget⟩ := (Option.any_eq_true _ _).1 hany
  refine ⟨hcovered, target, ⟨n, hn, hchain⟩, fun hin => ?_⟩
  rw [NodeSet.contains_iff.2 hin] at htarget
  cases htarget

/-- These are the nodes that the verdict looks for, if all covered nodes exist: then every test of
the search has a result. -/
theorem filterM_chainsTo_outside (ht : t.Inside b) :
    t.covered.toList.filterM (b.chainsTo fun target => !t.covered.contains target)
      = .ok (b.leaving t).toList := by
  refine filterM_eq_filter fun c hc => ?_
  obtain ⟨n, hn⟩ := node?_isSome_iff.2 (ht c (.inl hc))
  rw [chainsTo, node_eq_ok.2 hn, ok_bind]
  simp only [hn, Option.any_some]
  rfl

/-- A vetted tile has at most one node that leaves it. The list of them has no duplicates, so two of
them would be two nodes. -/
theorem Vetted.length_leaving_le_one (h : b.Vetted t) : (b.leaving t).toList.length ≤ 1 := by
  rcases hlist : (b.leaving t).toList with _ | ⟨c, rest⟩
  · exact Nat.zero_le 1
  · obtain ⟨hc, target, hchain, hout⟩ :=
      chain_of_mem_leaving (NodeSet.mem_def.2 (hlist ▸ List.mem_cons_self))
    have hsame : ∀ c' ∈ b.leaving t, c' = c := by
      intro c' hc'
      obtain ⟨hcov', target', hchain', hout'⟩ := chain_of_mem_leaving hc'
      exact h.one_chain c' hcov' c hc target' target hchain' hchain hout' hout
    rw [← hlist]
    rcases NodeSet.length_le_one hsame with hnil | hsingle
    · rw [hnil]
      exact Nat.zero_le 1
    · rw [hsingle]
      exact Nat.le_refl 1

/-- **The verdict on a tile inside the block is a statement about the graph.** Each of the three
checks of the validator finds nothing exactly if there is nothing to be found. -/
theorem accepts_iff_vetted (hb : b.InRange) (ht : t.Inside b) :
    b.accepts t = true ↔ b.Vetted t := by
  rw [accepts]
  constructor
  · intro h
    refine vetted_of_validate hb ?_
    split at h
    · assumption
    · cases h
  · intro h
    -- The three checks of the validator, one after the other, each find nothing.
    have hparts : (t.parts.find? fun p => !p.isStandalone) = none := by
      refine List.find?_eq_none.2 fun p hp => ?_
      simp [h.standalone p hp]
    have hinputs : t.inputs.toList.findSomeM? (b.chainedInput t.covered) = .ok none :=
      findSomeM?_eq_none fun x hx => chainedInput_eq_none hb (ht x (.inr hx))
        fun y z hpath hchain hz => h.inputs x hx ⟨y, hpath, z, hz, hchain⟩
    have hvalid : b.validate t = .ok none := by
      rw [validate, hparts]
      dsimp only
      rw [filterM_chainsTo_outside ht, ok_bind, if_neg (Nat.not_lt.2 h.length_leaving_le_one),
        hinputs]
    rw [hvalid]

namespace Renumbers

variable (hr : b.Renumbers f b')
include hr

/-- What leads into a set leads into it under new numbers. The steps of the path keep their
direction, as does the chain at its end. -/
theorem leadsInto {s : NodeSet} : b'.LeadsInto (s.map f) (f x) ↔ b.LeadsInto s x := by
  constructor
  · rintro ⟨y, hxy, z, hz, hyz⟩
    obtain ⟨y, rfl⟩ := hr.bijective.2 y
    obtain ⟨w, hw, rfl⟩ := NodeSet.mem_map.1 hz
    exact ⟨y, hr.reaches.1 hxy, w, hw, hr.chain.1 hyz⟩
  · rintro ⟨y, hxy, z, hz, hyz⟩
    exact ⟨f y, hr.reaches.2 hxy, f z, NodeSet.mem_map.2 ⟨z, hz, rfl⟩, hr.chain.2 hyz⟩

/-- A tile inside the block is inside the renumbered block. -/
theorem inside (ht : t.Inside b) : (t.rename f).Inside b' := by
  rintro x hx
  obtain ⟨x, rfl⟩ := hr.bijective.2 x
  refine hr.lt_size.2 (ht x ?_)
  simpa only [Tile.rename, NodeSet.mem_map_self hr.injective] using hx

/-- A tile is vetted exactly if it is under new numbers. Every node of the renumbered block is the
new number of some node, so both directions can be read off. -/
theorem vetted : b'.Vetted (t.rename f) ↔ b.Vetted t := by
  have hmem : ∀ {s : NodeSet} {x : NodeId}, f x ∈ s.map f ↔ x ∈ s :=
    NodeSet.mem_map_self hr.injective
  -- From the renamed tile back, every node of the tile has its image. The other way round, every
  -- node in the renamed tile is the image of one.
  constructor
  · intro h
    refine ⟨h.standalone, fun c hc c' hc' x x' hx hx' hout hout' => ?_, fun x hx hleads => ?_⟩
    · exact hr.injective (h.one_chain (f c) (hmem.2 hc) (f c') (hmem.2 hc') (f x) (f x')
        (hr.chain.2 hx) (hr.chain.2 hx') (mt hmem.1 hout) (mt hmem.1 hout'))
    · exact h.inputs (f x) (hmem.2 hx) (hr.leadsInto.2 hleads)
  · intro h
    refine ⟨h.standalone, fun c hc c' hc' x x' hx hx' hout hout' => ?_, fun x hx hleads => ?_⟩
    · obtain ⟨d, hd, rfl⟩ := NodeSet.mem_map.1 hc
      obtain ⟨d', hd', rfl⟩ := NodeSet.mem_map.1 hc'
      obtain ⟨x, rfl⟩ := hr.bijective.2 x
      obtain ⟨x', rfl⟩ := hr.bijective.2 x'
      rw [h.one_chain d hd d' hd' x x' (hr.chain.1 hx) (hr.chain.1 hx') (mt hmem.2 hout)
        (mt hmem.2 hout')]
    · obtain ⟨y, hy, rfl⟩ := NodeSet.mem_map.1 hx
      exact h.inputs y hy (hr.leadsInto.1 hleads)

/-- **A tile may be emitted exactly if it may be under new names.** -/
theorem accepts (hb : b.InRange) (ht : t.Inside b) : b'.accepts (t.rename f) = b.accepts t := by
  rw [Bool.eq_iff_iff, accepts_iff_vetted (hr.inRange hb) (hr.inside ht),
    accepts_iff_vetted hb ht, hr.vetted]

end Renumbers

end Block

/-! ## What is kept -/

/-- Two tiles do the same exactly if they do under new numbers. -/
theorem Tile.sameLowering_rename (hf : Function.Injective f) (t u : Tile) :
    (t.rename f).sameLowering (u.rename f) = t.sameLowering u := by
  have hset : ∀ s s' : NodeSet, (s.map f == s'.map f) = (s == s') := by
    intro s s'
    rw [Bool.eq_iff_iff, beq_iff_eq, beq_iff_eq]
    exact (NodeSet.map_injective hf).eq_iff
  simp only [sameLowering, rename, hset]

namespace Settings

variable {settings : Settings}

/-- What is left of a list of tiles without duplicates is the same under new numbers, since renaming
makes no two tiles equal that were not. -/
theorem distinct_rename (hf : Function.Injective f) (tiles : List Tile) :
    settings.distinct (tiles.map (Tile.rename f))
      = (settings.distinct tiles).map (Tile.rename f) := by
  have hadd : ∀ kept tile, settings.addDistinct (kept.map (Tile.rename f)) (tile.rename f)
      = (settings.addDistinct kept tile).map (Tile.rename f) := by
    intro kept tile
    rw [addDistinct, addDistinct, List.any_map, apply_ite (List.map (Tile.rename f))]
    simp only [Function.comp_def, Tile.sameLowering_rename hf, List.map_cons]
  rw [← reverse_foldl_addDistinct, ← reverse_foldl_addDistinct, List.foldl_map, List.map_reverse]
  exact congrArg List.reverse (@List.foldl_hom _ _ _ (List.map (Tile.rename f)) _ _ tiles [] hadd)

theorem keep_rename (hf : Function.Injective f) (tiles : List Tile) :
    settings.keep (tiles.map (Tile.rename f)) = (settings.keep tiles).map (Tile.rename f) := by
  rw [keep, keep, distinct_rename hf]
  split
  · exact List.map_take.symm
  · rfl

end Settings

/-! ## Tiles of a node -/

namespace Tables

variable {t : Tables} {id : NodeId} {s s' : Session}

/-- The candidates at a node are found by its operation and the stored operation, and these do not
change with the numbers. -/
theorem candidatesAt_renamed (hr : b.Renumbers f b') (x : NodeId) :
    Renamed f (fun candidates => candidates) (t.candidatesAt b x) (t.candidatesAt b' (f x)) := by
  -- The stored value is looked up under its other number.
  have hstored : ∀ n : Node, Renamed f (fun stored => stored) (Selector.storedOp b n)
      (Selector.storedOp b' (n.rename f)) := by
    intro n
    rw [Selector.storedOp.eq_def, Selector.storedOp.eq_def]
    dsimp only [Node.rename]
    split
    · rename_i address value rest hop hinputs
      simp only [hop, hinputs, List.map_cons]
      exact (hr.node value).bind fun v => .pure rfl
    · rename_i hno
      split
      · rename_i address value rest hop hmap
        obtain ⟨a, l, hinputs, rfl, hrest⟩ := List.map_eq_cons_iff.1 hmap
        obtain ⟨v, l, rfl, rfl, rfl⟩ := List.map_eq_cons_iff.1 hrest
        exact absurd hinputs (hno a v l hop)
      · exact .pure rfl
  exact (hr.node x).bind fun n => (hstored n).bind fun stored => .pure rfl

/-- Matching ends on the renumbered block where it ends on the block. The candidates are the same,
and matching one of them has an outcome on both sides or on neither. -/
theorem Terminates.renumbered (hr : b.Renumbers f b') (hid : id < b.size) (hb : b.OperandsInRange)
    (h : t.Terminates b id) : t.Terminates b' (f id) := by
  obtain ⟨n, fixed, stored, ms, hn, -, hstored, -, -⟩ := everyTile_eq hb hid h
  have hcandidates : t.candidatesAt b id = .ok (t.candidates n.op stored) := by
    rw [candidatesAt, Block.node_eq_ok.2 hn, ok_bind, hstored, ok_bind]
    rfl
  intro candidates hcandidates' p hp
  rw [(candidatesAt_renamed hr id).eq_ok hcandidates] at hcandidates'
  cases hcandidates'
  obtain ⟨o, ho⟩ := h _ hcandidates p hp
  exact ⟨_, (matchAt_renamed hr id p).eq_ok ho⟩

/-- The tiles that are made for a node lie inside the block: those of its fixed lowering, and those
of every match. -/
theorem inside_of_everyTile (hb : b.OperandsInRange) {tiles : List Tile}
    (h : t.everyTile b id s = .ok (tiles, s')) : ∀ tile ∈ tiles, tile.Inside b := by
  rw [everyTile, bind_eq_ok] at h
  obtain ⟨fixed, hfixed, h⟩ := h
  obtain ⟨candidates, -, h⟩ := bind_eq_ok.1 h
  obtain ⟨ms, hms, h⟩ := bind_eq_ok.1 h
  cases h
  intro tile htile
  -- A tile comes from the fixed lowering, if there is one, or from a match of a candidate.
  rcases List.mem_append.1 htile with htile | htile
  · cases fixed with
    | none => cases htile
    | some lowered =>
      obtain ⟨n, hn, hlowered⟩ := Block.fixed_of_lower hfixed
      obtain ⟨reads, hreads⟩ := hlowered tile htile
      exact hreads.inside hb hn
  · obtain ⟨i, hi, rfl⟩ := List.mem_map.1 htile
    obtain ⟨m, hm, hinst⟩ := Match.instantiates_of_mem_all ms s i hi
    obtain ⟨p, -, hp⟩ := (mem_of_filterMapM hms m).1 hm
    exact inside_of_matchAt hp i hinst

/-- **The tiles made for a node of the renumbered block are the same, renamed.** The lowering, the
candidates and their matches correspond, and temporaries are counted from the same number. -/
theorem everyTile_renamed (hr : b.Renumbers f b') (hcount : s'.allocated = s.allocated)
    {tiles : List Tile} {s₁ : Session} (h : t.everyTile b id s = .ok (tiles, s₁)) :
    ∃ s₁', t.everyTile b' (f id) s' = .ok (tiles.map (Tile.rename f), s₁') := by
  rw [everyTile, bind_eq_ok] at h
  obtain ⟨fixed, hfixed, h⟩ := h
  obtain ⟨candidates, hcandidates, h⟩ := bind_eq_ok.1 h
  obtain ⟨ms, hms, h⟩ := bind_eq_ok.1 h
  cases h
  obtain ⟨his, -⟩ := Match.instantiationsOfAll_renamed hr ms s s' hcount
  have hms' := (Renamed.filterMapM (fun p => matchAt_renamed (t := t) hr id p) candidates).eq_ok hms
  -- Each stage of the one run has its counterpart in the other.
  rw [everyTile, (hr.lower id).eq_ok hfixed, ok_bind,
    (candidatesAt_renamed hr id).eq_ok hcandidates, ok_bind, hms', ok_bind, ← Match.renameAll_eq_map]
  refine ⟨_, congrArg Except.ok (Prod.ext ?_ rfl)⟩
  dsimp only
  rw [his, List.map_map, List.map_append, List.map_map]
  congr 1
  · cases fixed <;> rfl
  · exact List.map_congr_left fun i _ => i.toTile_rename

/-- A node is covered exactly if it is under its new number: it has the same tiles, renamed, and the
validator accepts one exactly if it accepts the other. -/
theorem covers_renumbered (hr : b.Renumbers f b') (hb : b.InRange) (hid : id < b.size)
    (hterm : t.Terminates b id) : t.covers b' (f id) = t.covers b id := by
  obtain ⟨n, fixed, stored, ms, -, -, -, -, hevery⟩ := everyTile_eq hb.operands hid hterm
  obtain ⟨s₁', hevery'⟩ := everyTile_renamed hr rfl (hevery .start)
  have hinside := inside_of_everyTile hb.operands (hevery .start)
  rw [covers, covers, hevery', hevery .start]
  dsimp only
  rw [List.any_map, Bool.eq_iff_iff, List.any_eq_true, List.any_eq_true]
  refine exists_congr fun tile => and_congr_right fun htile => ?_
  rw [Function.comp_apply, hr.accepts hb (hinside tile htile)]

end Tables

/-! ## Nodes and blocks -/

namespace Selector

variable {t : Tables} {settings : Settings} {id : NodeId} {s s' : Session}

/-- A node gets the same tiles, renamed, under its new number, if both runs start from the same
count of temporaries. -/
theorem selectNode_renumbered (hr : b.Renumbers f b') (hb : b.InRange) (hid : id < b.size)
    (hterm : t.Terminates b id) (hcount : s'.allocated = s.allocated) :
    ∃ tiles u u', selectNode ⟨t, settings⟩ b id s = .ok (tiles, u)
      ∧ selectNode ⟨t, settings⟩ b' (f id) s' = .ok (tiles.map (Tile.rename f), u') := by
  obtain ⟨tiles, s₁, u, hevery, hselect⟩ := selectNode_eq_keep hb.operands hid hterm settings
  obtain ⟨tiles', s₁', u', hevery', hselect'⟩ :=
    @selectNode_eq_keep t b' (f id) s' (hr.operandsInRange hb.operands) (hr.lt_size.2 hid)
      (hterm.renumbered hr hid hb.operands) settings
  obtain ⟨s₂, hrenamed⟩ := Tables.everyTile_renamed hr hcount hevery
  rw [hrenamed] at hevery'
  cases hevery'
  have hinside := Tables.inside_of_everyTile hb.operands hevery
  refine ⟨_, u, u', hselect, ?_⟩
  rw [hselect', List.filter_map, Settings.keep_rename hr.injective]
  -- The verdicts agree tile by tile, so the same tiles are left.
  have hverdicts : tiles.filter (b'.accepts ∘ Tile.rename f) = tiles.filter b.accepts :=
    List.filter_congr fun tile htile => hr.accepts hb (hinside tile htile)
  rw [hverdicts]

/-- A block is covered exactly if every node is, where matching ends. It does not matter in what
order the nodes come, which is why a permutation changes nothing. -/
theorem selectBlock_eq (hb : b.OperandsInRange) (hterm : ∀ id, id < b.size → t.Terminates b id) :
    ∃ outcome u, selectBlock ⟨t, settings⟩ b = .ok (outcome, u)
      ∧ ((∃ lists, outcome = .ok lists) ↔ ∀ id, id < b.size → t.covers b id = true) := by
  have hids : ∀ id ∈ b.ids, id < b.size ∧ t.Terminates b id := fun id hid =>
    ⟨List.mem_range.1 hid, hterm id (List.mem_range.1 hid)⟩
  obtain ⟨outcome, u, hselect, houtcome⟩ := selectNodes_eq hb settings b.ids hids .start
  refine ⟨outcome, u, hselect, ?_⟩
  -- Selection ends at the first node without a tile, if there is one.
  cases hfind : b.ids.find? fun id => !t.covers b id with
  | some id =>
    rw [hfind] at houtcome
    obtain ⟨n, -, rfl⟩ := houtcome
    have hid := List.mem_range.1 (List.mem_of_find?_eq_some hfind)
    have hnot := List.find?_some hfind
    constructor
    · rintro ⟨lists, h⟩
      cases h
    · intro hall
      rw [hall id hid] at hnot
      cases hnot
  | none =>
    rw [hfind] at houtcome
    obtain ⟨lists, rfl, -, -⟩ := houtcome
    refine ⟨fun _ id hid => ?_, fun _ => ⟨lists, rfl⟩⟩
    have hcovered := List.find?_eq_none.1 hfind id (List.mem_range.2 hid)
    simpa using hcovered

/-- **Selection does not depend on how nodes are numbered.** With all positions inside the block,
the tiles of a node are the same under any permutation of the nodes, in the same order and with the
same parts and sources, if equally many temporaries were allocated before; only their nodes have
new names. And the permuted block is covered exactly if the block is. -/
theorem selection_renumber (t : Tables) (settings : Settings) (b : Block) (hb : b.InRange)
    (π : Equiv.Perm (Fin b.size)) :
    (∀ (id : Fin b.size) (s s' : Session), t.Terminates b id → s'.allocated = s.allocated →
      ∃ tiles u u', selectNode ⟨t, settings⟩ b id s = .ok (tiles, u)
        ∧ selectNode ⟨t, settings⟩ (b.renumber π) (π id) s'
          = .ok (tiles.map (Tile.rename (Block.renumbered π)), u'))
    ∧ ((∀ id, id < b.size → t.Terminates b id) →
      ∃ outcome u outcome' u', selectBlock ⟨t, settings⟩ b = .ok (outcome, u)
        ∧ selectBlock ⟨t, settings⟩ (b.renumber π) = .ok (outcome', u')
        ∧ ((∃ lists, outcome' = .ok lists) ↔ ∃ lists, outcome = .ok lists)) := by
  have hr := b.renumbers_renumber π
  constructor
  · intro id s s' hterm hcount
    rw [← Block.renumbered_val π id]
    exact selectNode_renumbered hr hb id.isLt hterm hcount
  · -- A block is covered if its nodes are, and every number of the renumbered block is that of a
    -- node.
    intro hterm
    have hterm' : ∀ id, id < (b.renumber π).size → t.Terminates (b.renumber π) id := by
      intro id hid
      obtain ⟨x, rfl⟩ := hr.bijective.2 id
      have hx := hr.lt_size.1 hid
      exact (hterm x hx).renumbered hr hx hb.operands
    obtain ⟨outcome, u, hselect, houtcome⟩ := @selectBlock_eq b t settings hb.operands hterm
    obtain ⟨outcome', u', hselect', houtcome'⟩ :=
      @selectBlock_eq _ t settings (hr.operandsInRange hb.operands) hterm'
    refine ⟨outcome, u, outcome', u', hselect, hselect', ?_⟩
    rw [houtcome, houtcome']
    constructor
    · intro h x hx
      rw [← Tables.covers_renumbered hr hb hx (hterm x hx)]
      exact h _ (hr.lt_size.2 hx)
    · intro h id hid
      obtain ⟨x, rfl⟩ := hr.bijective.2 id
      have hx := hr.lt_size.1 hid
      rw [Tables.covers_renumbered hr hb hx (hterm x hx)]
      exact h x hx

/-- A load, a sum, and a sum that is stored where one of its operands was loaded from. -/
def updating : List Pattern :=
  [⟨⟨"load", 0⟩, .node none none .load [.producer (some "p") none],
     [.plain "MOV" [.reference ["out"] none none,
       .memory ⟨some (.reference ["p"] none none), none, 1, none⟩]]⟩,
   ⟨⟨"sum", 0⟩, .node none none .add [.producer (some "x") none, .producer (some "y") none],
     [.plain "MOV" [.reference ["out"] none none, .reference ["x"] none none],
       .plain "ADD" [.reference ["out"] none none, .reference ["y"] none none]]⟩,
   ⟨⟨"update", 0⟩, .node none none .store [.producer (some "p") none,
       .node none none .add [.node none none .load [.backreference "p"],
         .producer (some "v") none]],
     [.plain "ADD" [.memory ⟨some (.reference ["p"] none none), none, 1, none⟩,
       .reference ["v"] none none]]⟩]

/-- The nodes of `increase` in reverse. -/
def reversed : Equiv.Perm (Fin increase.size) := Fin.revPerm

/-- With its nodes in reverse, every operand and every chain of `increase` points forward. The tile
of the store covers the same nodes under their new numbers, and the block is covered still. -/
theorem selection_renumber_increase :
    increase.InRange
      ∧ (increase.renumber reversed).nodes.toList.map Node.edges = [[4, 1, 2], [2, 3], [4], [], []]
      ∧ (∃ tiles u u', selectNode ⟨.ofPatterns updating, .default⟩ increase 4 .start
            = .ok (tiles, u)
          ∧ selectNode ⟨.ofPatterns updating, .default⟩ (increase.renumber reversed) 0 .start
            = .ok (tiles.map (Tile.rename (Block.renumbered reversed)), u')
          ∧ tiles.map Tile.covered = [.ofList [2, 3, 4]]
          ∧ (tiles.map (Tile.rename (Block.renumbered reversed))).map Tile.covered
            = [.ofList [0, 1, 2]])
      ∧ ∃ lists u, selectBlock ⟨.ofPatterns updating, .default⟩ (increase.renumber reversed)
          = .ok (.ok lists, u) := by
  have hordered : increase.Ordered := by decide
  have hroots : (Tables.ofPatterns updating).RootAcyclic :=
    Tables.rootAcyclic_of_roots (by simp [updating])
  have hterm : ∀ id, id < increase.size → (Tables.ofPatterns updating).Terminates increase id :=
    fun id hid _ _ p _ => Tables.matchAt_total hroots hordered.acyclic.operands
      hordered.inRange.operands hid p
  obtain ⟨hnodes, hblocks⟩ :=
    selection_renumber (.ofPatterns updating) .default increase hordered.inRange reversed
  refine ⟨hordered.inRange, by decide, ?_, ?_⟩
  · obtain ⟨tiles, u, u', hselect, hselect'⟩ :=
      hnodes ⟨4, by decide⟩ .start .start (hterm 4 (by decide)) rfl
    have hcovered : (selectNode ⟨.ofPatterns updating, .default⟩ increase 4 .start).toOption.map
        (fun r => r.1.map Tile.covered) = some [.ofList [2, 3, 4]] := by
      decide +kernel
    -- The store has become the node 0, and its tile covers the nodes that the load and the sum have
    -- become.
    have hcovered' : (selectNode ⟨.ofPatterns updating, .default⟩ (increase.renumber reversed) 0
        .start).toOption.map (fun r => r.1.map Tile.covered) = some [.ofList [0, 1, 2]] := by
      decide +kernel
    rw [hselect] at hcovered
    rw [show (0 : NodeId) = reversed ⟨4, by decide⟩ from rfl, hselect'] at hcovered'
    exact ⟨tiles, u, u', hselect, hselect', Option.some.inj hcovered, Option.some.inj hcovered'⟩
  · obtain ⟨outcome, u, outcome', u', hselect, hselect', hcovered⟩ := hblocks hterm
    have hok : (selectBlock ⟨.ofPatterns updating, .default⟩ increase).toOption.map
        (fun r => r.1.toOption.isSome) = some true := by
      decide +kernel
    rw [hselect] at hok
    cases outcome with
    | error e => cases hok
    | ok lists =>
      obtain ⟨lists', rfl⟩ := hcovered.2 ⟨lists, rfl⟩
      exact ⟨lists', u', hselect'⟩

end Selector

end TileSelect
