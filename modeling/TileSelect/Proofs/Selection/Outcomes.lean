import TileSelect.Proofs.Expansion.Choices
import TileSelect.Proofs.Lowering
import TileSelect.Proofs.Match.Layers
/-!
Selection has an outcome.

A fault has two causes only: a node is looked up that does not exist, or groups include each other
without end. Where the operands of a block are nodes of it, everything that is looked up exists:
lowering looks at operands, matching moves along operands, and what it computes and reads are
nodes it has looked at. So a tile that is offered lies inside the block, and then the validator
has a verdict on it, because the walk along dependencies passes over positions that do not exist.
-/

set_option autoImplicit false

namespace TileSelect

open Relation

/-! ## Lowerings -/

namespace Lowering

variable {α β : Type} {b : Block} {id : NodeId} {n : Node} {out : Part}

/-- A step comes to something or to nothing, but not to a fault. -/
def Total (x : Attempted α) : Prop := ∃ o, x.run = .ok o

/-- Two steps that come to no fault come to none together. -/
theorem Total.bind {x : Attempted α} {f : α → Attempted β} (hx : Total x)
    (hf : ∀ a, x.run = .ok (some a) → Total (f a)) : Total (x >>= f) := by
  obtain ⟨o, ho⟩ := hx
  rw [Total, OptionT.run_bind, Option.elimM, ho, ok_bind]
  cases o with
  | none => exact ⟨none, rfl⟩
  | some a => exact hf a ho

theorem total_pure (a : α) : Total (pure a : Attempted α) := ⟨some a, rfl⟩

theorem total_given (o : Option α) : Total (given o) := ⟨o, rfl⟩

/-- The operand for a node of the block may be missing, but the node is there. -/
theorem total_operand (hid : id < b.size) : Total (operand b id) := by
  obtain ⟨n, hn⟩ := Block.node?_isSome_iff.2 hid
  exact ⟨b.valueOf? id, by rw [operand, OptionT.run_mk, Block.node_eq_ok.2 hn]; rfl⟩

/-- The comparison that decides a select can be looked up, and so can its operands. They are in the
block, as all operands are in range. -/
theorem total_selectCompare (hb : b.OperandsInRange) {cond yesId noId : NodeId} {yes no : Part}
    (hcond : cond < b.size) :
    ∃ tiles, selectCompare b id cond yesId noId out yes no = .ok tiles := by
  obtain ⟨comparison, hfound⟩ := Block.node?_isSome_iff.2 hcond
  rw [selectCompare, Block.node_eq_ok.2 hfound, ok_bind]
  split
  · rename_i condition x y _ hinputs
    -- The operands of the comparison are nodes of the block.
    have hin : ∀ z ∈ comparison.inputs, ∃ n, b.node? z = some n := fun z hz =>
      Block.node?_isSome_iff.2 (hb cond z ⟨comparison, hfound, hz⟩)
    obtain ⟨nx, hnx⟩ := hin x (by simp [hinputs])
    obtain ⟨ny, hny⟩ := hin y (by simp [hinputs])
    rw [Block.node_eq_ok.2 hnx, Block.node_eq_ok.2 hny, ok_bind, ok_bind]
    split <;> exact ⟨_, rfl⟩
  · exact ⟨_, rfl⟩

/-- A select looks up its three operands and the comparison. With another number of operands it
looks up nothing. -/
theorem total_select (hb : b.OperandsInRange) (hid : id < b.size)
    (hin : ∀ x ∈ n.inputs, x < b.size) : Total (select b id n) := by
  rw [select]
  split
  · rename_i cond yesId noId hinputs
    have hcond : cond < b.size := hin cond (by simp [hinputs])
    -- The lookups in the order in which they are made.
    refine (total_operand hid).bind fun out _ => ?_
    refine (total_operand (hin yesId (by simp [hinputs]))).bind fun yes _ => ?_
    refine (total_operand (hin noId (by simp [hinputs]))).bind fun no _ => ?_
    refine (total_operand hcond).bind fun condition _ => ?_
    obtain ⟨wider, hwider⟩ := @total_selectCompare b id out hb cond yesId noId yes no hcond
    refine Total.bind ⟨some wider, ?_⟩ fun _ _ => total_pure _
    rw [hwider]
    rfl
  · exact total_given none

/-- Pushing arguments looks up each of them. The induction is on the arguments, in the order in
which they are pushed. -/
theorem total_pushAll {args : List NodeId} (hargs : ∀ x ∈ args, x < b.size) :
    Total (pushAll b args) := by
  induction args with
  | nil => exact total_pure []
  | cons x args ih =>
    rw [pushAll]
    refine (total_operand (hargs x List.mem_cons_self)).bind fun value _ => ?_
    refine (total_given _).bind fun pushes _ => ?_
    exact (ih fun y hy => hargs y (List.mem_cons_of_mem x hy)).bind fun _ _ => total_pure _

/-- A call looks up its callee and its arguments. The callee is an operand of the node, or is named
and needs no lookup. -/
theorem total_call (hin : ∀ x ∈ n.inputs, x < b.size) : Total (call b id n) := by
  have hcallee : Total (callee b n) := by
    rw [callee]
    split
    · exact total_pure _
    · split
      · exact total_given none
      · rename_i first args hinputs
        exact (total_operand (hin first (by simp [hinputs]))).bind fun _ _ => total_pure _
  refine hcallee.bind fun ⟨target, args, read⟩ hfound => ?_
  -- What is pushed are operands of the call.
  have hargs : ∀ x ∈ args.reverse, x < b.size := by
    intro x hx
    obtain ⟨hinputs, -⟩ := callee_eq_some hfound
    exact hin x (hinputs ▸ List.mem_append_right read (List.mem_reverse.1 hx))
  refine (total_pushAll hargs).bind fun pushes _ => ?_
  exact (total_given _).bind fun _ _ => total_pure _

/-- A branch looks up its condition, which is its first operand. -/
theorem total_branch (hin : ∀ x ∈ n.inputs, x < b.size) : Total (branch b id n) := by
  rw [branch]
  split
  · rename_i cond yes no hcond _
    have hmem : cond ∈ n.inputs := by
      rw [Node.condition?] at hcond
      split at hcond
      · exact List.mem_of_mem_head? hcond
      · cases hcond
    exact (total_operand (hin cond hmem)).bind fun _ _ => total_pure _
  · exact total_given none

/-- A return looks up what it hands over: nothing, or its single operand. -/
theorem total_ret (hin : ∀ x ∈ n.inputs, x < b.size) : Total (ret b id n) := by
  have hparts : Total (handOver b n.inputs) := by
    unfold handOver
    split
    · exact total_pure _
    · rename_i x hinputs
      exact (total_operand (hin x (by simp [hinputs]))).bind fun _ _ => total_given _
    · exact total_given none
  exact hparts.bind fun _ _ => total_pure _

end Lowering

/-- **Lowering a node has an outcome, if its operands are nodes.** Either there are tiles, or there
is no fixed lowering; a fault would be a node that is looked up and missing. -/
theorem Block.lower_total {b : Block} {id : NodeId} (hb : b.OperandsInRange) (hid : id < b.size) :
    ∃ o, b.lower id = .ok o := by
  obtain ⟨n, hn⟩ := Block.node?_isSome_iff.2 hid
  have hin : ∀ x ∈ n.inputs, x < b.size := fun x hx => hb id x ⟨n, hn, hx⟩
  rw [lower, Block.node_eq_ok.2 hn, ok_bind]
  -- Most lowerings only read the node itself. The others look up its operands.
  split
  · exact ⟨_, rfl⟩
  · exact ⟨_, rfl⟩
  · exact ⟨_, rfl⟩
  · exact Lowering.total_select hb hid hin
  · exact Lowering.total_call hin
  · exact Lowering.total_call hin
  · exact ⟨_, rfl⟩
  · exact Lowering.total_branch hin
  · exact Lowering.total_ret hin
  · exact ⟨_, rfl⟩
  · exact ⟨_, rfl⟩

/-! ## Verdicts -/

/-- What a tile covers and reads are nodes of the block. -/
def Tile.Inside (b : Block) (t : Tile) : Prop := ∀ x, x ∈ t.covered ∨ x ∈ t.inputs → x < b.size

namespace Block

variable {b : Block}

/-- Whether a node of the block is chained somewhere can be told. -/
theorem chainsTo_total {test : NodeId → Bool} {id : NodeId} (hid : id < b.size) :
    ∃ v, b.chainsTo test id = .ok v := by
  obtain ⟨n, hn⟩ := node?_isSome_iff.2 hid
  exact ⟨n.chain.any test, by rw [chainsTo, node_eq_ok.2 hn]; rfl⟩

theorem lt_size_of_mem_dependencies {x y : NodeId} (h : y ∈ b.dependencies x) : y < b.size := by
  obtain ⟨z, -, hzy⟩ := TransGen.tail'_iff.1 (mem_dependencies.1 h)
  exact hzy.2

/-- Whether something that is read is chained into a tile can be told. The nodes that it depends on
are in the block, and so are the chains of these. -/
theorem chainedInput_total {covered : NodeSet} {input : NodeId} (hinput : input < b.size) :
    ∃ v, b.chainedInput covered input = .ok v := by
  have hsearch : ∃ via, b.chainedInto covered input = .ok via := by
    refine findM?_total fun x hx => chainsTo_total ?_
    rcases List.mem_cons.1 hx with rfl | hx
    · exact hinput
    · exact lt_size_of_mem_dependencies hx
  obtain ⟨via, hvia⟩ := hsearch
  exact ⟨_, by rw [chainedInput, hvia]; rfl⟩

/-- **The validator has a verdict on every tile inside the block.** It looks only at nodes that the
tile covers, at those that it reads and at what these depend on. -/
theorem validate_total {t : Tile} (h : t.Inside b) : ∃ v, b.validate t = .ok v := by
  rw [validate]
  split
  · exact ⟨_, rfl⟩
  · obtain ⟨outside, houtside⟩ := filterM_total (l := t.covered.toList)
      (p := b.chainsTo fun target => !t.covered.contains target)
      fun x hx => chainsTo_total (h x (.inl hx))
    rw [houtside, ok_bind]
    split
    · exact ⟨_, rfl⟩
    · exact findSomeM?_total fun x hx => chainedInput_total (h x (.inr hx))

end Block

/-- A fixed lowering lies inside the block: it covers its node, and possibly a comparison, and reads
operands of these. -/
theorem Lowering.Fixed.inside {b : Block} {id : NodeId} {n : Node} {reads : List NodeId} {t : Tile}
    (hb : b.OperandsInRange) (hn : b.node? id = some n) (h : Fixed b id n reads t) :
    t.Inside b := by
  have hid : id < b.size := Block.node?_isSome_iff.1 ⟨n, hn⟩
  have hin : ∀ x ∈ n.inputs, x < b.size := fun x hx => hb id x ⟨n, hn, hx⟩
  intro x hx
  cases h with
  | alone kind reads parts sound complete values =>
    simp only [tile, NodeSet.mem_ofList, NodeSet.mem_diff, List.mem_singleton] at hx
    rcases hx with rfl | ⟨hread, -⟩
    · exact hid
    · exact hin x (sound x hread)
  | comparing cond yes no y z comparison parts operands found compared yields values =>
    -- The operands of the comparison are nodes as well.
    have hcompared : ∀ w ∈ comparison.inputs, w < b.size := fun w hw =>
      hb cond w ⟨comparison, found, hw⟩
    simp only [tile, NodeSet.mem_ofList, NodeSet.mem_diff, List.mem_cons, List.not_mem_nil,
      or_false] at hx
    rw [operands] at hin
    rw [compared] at hcompared
    simp only [List.mem_cons, List.not_mem_nil, or_false, forall_eq_or_imp, forall_eq]
      at hin hcompared
    rcases hx with (rfl | rfl) | ⟨rfl | rfl | rfl | rfl, -⟩
    · exact hid
    · exact hin.1
    · exact hin.2.1
    · exact hin.2.2
    · exact hcompared.1
    · exact hcompared.2

/-! ## Matches -/

/-- The instantiations of a match lie inside the block. -/
def Match.Inside (b : Block) (m : Match) : Prop :=
  ∀ i, m.Instantiates b i → ∀ x, x ∈ i.covered ∨ x ∈ i.inputs → x < b.size

/-- What a record says so far is about nodes of the block, and its alternatives lie inside it. -/
structure Match.Local (b : Block) (r : Match) : Prop where
  covered : ∀ x ∈ r.covered, x < b.size
  inputs : ∀ x ∈ r.inputs, x < b.size
  submatches : ∀ i ms, (i, ms) ∈ r.submatches → ∀ m ∈ ms, m.Inside b

/-- One step keeps a record local, if inclusions find what lies inside the block: a step covers or
reads a node that was looked up, and such a node is there. -/
theorem Match.Local.step {b : Block} {inc : Inclusion} {idents : List String}
    (hinc : ∀ g id ms, inc g id = .ok ms → ∀ m ∈ ms, m.Inside b) {r r' : Match}
    (h : r.Local b) (hstep : Shape.Step b inc idents r r') : r'.Local b := by
  -- A binding changes neither set, and new alternatives are inside the block by assumption.
  cases hstep with
  | cover hid =>
    refine ⟨fun x hx => ?_, h.inputs, h.submatches⟩
    rcases NodeSet.mem_insert.1 hx with rfl | hx
    · exact hid
    · exact h.covered x hx
  | read hid =>
    refine ⟨h.covered, fun x hx => ?_, h.submatches⟩
    rcases NodeSet.mem_insert.1 hx with rfl | hx
    · exact hid
    · exact h.inputs x hx
  | bind => exact ⟨h.covered, h.inputs, h.submatches⟩
  | addAlternatives hi hid hms hne =>
    refine ⟨h.covered, h.inputs, fun i ms' hentry => ?_⟩
    rcases Keyed.eq_or_mem_of_mem_insert hentry with heq | hold
    · cases heq
      exact hinc _ _ _ hms
    · exact h.submatches i ms' hold

/-- Whatever steps are taken, a record stays local. -/
theorem Shape.Steps.isLocal {b : Block} {inc : Inclusion} {idents : List String}
    (hinc : ∀ g id ms, inc g id = .ok ms → ∀ m ∈ ms, m.Inside b) {r r' : Match}
    (h : Steps b inc idents r r') (hr : r.Local b) : r'.Local b := by
  induction h with
  | refl => exact hr
  | tail _ hstep ih => exact ih.step hinc hstep

/-- **A match lies inside the block.** Its record is local, and its instantiations add what was
chosen for its inclusions, which lies inside the block for its part. -/
theorem Pattern.inside_of_matchWith {b : Block} {inc : Inclusion}
    (hinc : ∀ g id ms, inc g id = .ok ms → ∀ m ∈ ms, m.Inside b) {p : Pattern} {id : NodeId}
    {m : Match} (h : p.matchWith b inc id = .ok (some m)) : m.Inside b := by
  have hlocal : m.Local b := by
    refine (Shape.attempt_steps p.root id _ _ (matchWith_eq_some h)).isLocal hinc ?_
    exact ⟨by simp [Match.start], by simp [Match.start], by simp [Match.start]⟩
  intro i hi x hx
  cases hi with
  | @intro _ chosen _ _ _ chooses _ =>
    -- What is chosen is an instantiation of an alternative, which lies inside the block.
    have hchoice : ∀ choice ∈ chosen,
        ∀ x, x ∈ choice.2.covered ∨ x ∈ choice.2.inputs → x < b.size := by
      rintro ⟨ident, sub⟩ hmem
      obtain ⟨ms, m', hms, hm', hsub⟩ := chooses.of_mem hmem
      exact hlocal.submatches ident ms hms m' hm' sub hsub
    rcases hx with hx | hx
    · rcases Match.mem_coveredWith.1 hx with hx | ⟨choice, hmem, hx⟩
      · exact hlocal.covered x hx
      · exact hchoice choice hmem x (.inl hx)
    · rcases Match.mem_readWith.1 (NodeSet.mem_diff.1 hx).1 with hx | ⟨choice, hmem, hx⟩
      · exact hlocal.inputs x hx
      · exact hchoice choice hmem x (.inr hx)

/-- Alternatives lie inside the block, in every layer. The induction is on the layers; the lowest
has no alternatives. -/
theorem Tables.inside_alternatives (t : Tables) (b : Block) (n : Nat) :
    ∀ g id ms, t.alternatives b n g id = .ok ms → ∀ m ∈ ms, m.Inside b := by
  induction n with
  | zero =>
    intro g id ms h
    cases h
  | succ n ih =>
    intro g id ms h m hm
    obtain ⟨p, -, hp⟩ := (mem_of_filterMapM h m).1 hm
    exact Pattern.inside_of_matchWith ih hp

/-- A match of a pattern of the tables lies inside the block. -/
theorem Tables.inside_of_matchAt {t : Tables} {b : Block} {id : NodeId} {p : Pattern} {m : Match}
    (h : t.matchAt b id p = .ok (some m)) : m.Inside b :=
  Pattern.inside_of_matchWith (inside_alternatives t b _) h

end TileSelect
