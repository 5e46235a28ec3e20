import TileSelect.Proofs.Expansion.Explicit
import TileSelect.Proofs.Selection.Subgraph
import TileSelect.Tables.X86
/-!
What tiles read and what they declare to read.

A tile lists the nodes whose values other tiles have to compute first. The list is made from the
nodes that were matched for their value, less the nodes that the tile covers, and that is where it
can go wrong. One node can be matched twice, once for its value and once as something to compute:
a number that is an operand of a sum twice, say. It is covered then and not listed, but its value
occurs in the instructions (`not_declaresReads_fiveTwice`).

Here it is shown that nothing else goes wrong with the bundled patterns. What occurs in the
instructions of a tile is known exactly, as these patterns are explicit, so a tile declares its
reads exactly if no node it was made to read is covered, the root excepted.
-/

set_option autoImplicit false

namespace TileSelect

/-! ## The property -/

/-- Every value that occurs in the tile is that of its root or of an input, and never that of a
node that is covered in the middle. -/
def Tile.DeclaresReads (b : Block) (t : Tile) : Prop :=
  ∀ v ∈ Part.valuesOfAll t.parts, (b.Yields t.root v ∨ ∃ x ∈ t.inputs.toList, b.Yields x v)
    ∧ ∀ x ∈ t.covered.toList, x ≠ t.root → ¬ b.Yields x v

instance (b : Block) (t : Tile) : Decidable (t.DeclaresReads b) :=
  inferInstanceAs (Decidable (∀ v ∈ _, _))

namespace Tile

variable {b : Block} {t : Tile} {reads : List NodeId}

/-- The tile was made to read these nodes: what is covered of them is not listed as an input, and
occurs in the tile nevertheless. -/
structure MadeFrom (b : Block) (t : Tile) (reads : List NodeId) : Prop where
  inputs : ∀ x, x ∈ t.inputs ↔ x ∈ reads ∧ ¬ x ∈ t.covered
  values : ∀ v ∈ Part.valuesOfAll t.parts, b.Yields t.root v ∨ ∃ x ∈ reads, b.Yields x v
  written : ∀ x ∈ reads, x ∈ t.covered → x = t.root ∨ ∃ v ∈ Part.valuesOfAll t.parts, b.Yields x v

/-- **Reading what is covered is the only way not to declare it.** What is covered is dropped from
the inputs, and so a value that was read all the same is declared nowhere. -/
theorem MadeFrom.declaresReads_iff (h : t.MadeFrom b reads) (hb : b.DistinctValues) :
    t.DeclaresReads b ↔ ∀ x ∈ reads, x ∈ t.covered → x = t.root := by
  constructor
  · intro hdeclares x hx hcovered
    rcases h.written x hx hcovered with hroot | ⟨v, hv, hyields⟩
    · exact hroot
    · exact Decidable.byContradiction fun hne =>
        (hdeclares v hv).2 x (NodeSet.mem_def.1 hcovered) hne hyields
  · intro hreads v hv
    -- What yields the value is the root or is read, and read nodes are not covered.
    have hcases : ∀ x, b.Yields x v → x = t.root ∨ x ∈ t.inputs := by
      intro x hx
      rcases h.values v hv with hroot | ⟨y, hy, hyields⟩
      · exact .inl (hb x t.root v hx hroot)
      · obtain rfl := hb x y v hx hyields
        by_cases hcovered : x ∈ t.covered
        · exact .inl (hreads x hy hcovered)
        · exact .inr ((h.inputs x).2 ⟨hy, hcovered⟩)
    refine ⟨?_, fun x hx hne hyields => ?_⟩
    · obtain ⟨x, hyields⟩ : ∃ x, b.Yields x v := by
        rcases h.values v hv with hroot | ⟨y, -, hyields⟩
        · exact ⟨_, hroot⟩
        · exact ⟨y, hyields⟩
      rcases hcases x hyields with rfl | hinput
      · exact .inl hyields
      · exact .inr ⟨x, NodeSet.mem_def.1 hinput, hyields⟩
    · rcases hcases x hyields with hroot | hinput
      · exact hne hroot
      · exact ((h.inputs x).1 hinput).2 (NodeSet.mem_def.2 hx)

end Tile

/-! ## Fixed lowerings and instantiations -/

/-- A fixed lowering is made from what it was made to read: the operands of its node, or those of
the comparison that it takes in. All values in it are of these or of the node itself. -/
theorem Lowering.Fixed.madeFrom {b : Block} {id : NodeId} {n : Node} {reads : List NodeId}
    {t : Tile} (h : Fixed b id n reads t) : t.MadeFrom b reads := by
  cases h with
  -- The tile of the node alone covers the node, and what it reads are operands.
  | alone kind reads parts sound complete values =>
    refine ⟨by simp [tile], fun v hv => ?_, fun x hx hcovered => ?_⟩
    · obtain ⟨x, rfl | hx, hyields⟩ := values v hv
      · exact .inl hyields
      · exact .inr ⟨x, hx, hyields⟩
    · exact .inl (by simpa [tile] using hcovered)
  -- The other one names the values of all that it reads, and besides these only its own.
  | comparing cond yes no x y comparison parts operands found compared yields values =>
    refine ⟨by simp [tile], fun v hv => ?_, fun z hz _ => ?_⟩
    · obtain ⟨z, hz, hyields⟩ := (values v).1 hv
      rcases List.mem_cons.1 hz with rfl | hz
      · exact .inl hyields
      · exact .inr ⟨z, hz, hyields⟩
    · obtain ⟨v, hv⟩ := yields z hz
      exact .inr ⟨v, (values v).2 ⟨z, List.mem_cons_of_mem id hz, hv⟩, hv⟩

/-- An instantiation is made from what its record and its choices read. Whatever else it names was
covered by the record or by one of the choices. -/
theorem Instantiation.Accounted.madeFrom {b : Block} {i : Instantiation} (h : i.Accounted b) :
    i.toTile.MadeFrom b (i.reads b) := by
  refine ⟨h.inputs, fun v hv => ?_, fun x hx _ => ?_⟩
  · rcases (h.values v).1 hv with ⟨-, hroot⟩ | hread
    · exact .inl hroot
    · exact .inr hread
  · obtain ⟨v, hv⟩ := h.yields x hx
    exact .inr ⟨v, (h.values v).2 (.inr ⟨x, hx, hv⟩), hv⟩

/-! ## Tiles -/

namespace Selector

variable {sel : Selector} {b : Block} {id x : NodeId} {s s' : Session} {tiles : List Tile}
  {tile : Tile}

/-- A tile of the node was made to read the value of another node: by its fixed lowering, or by an
instantiation of a match of a candidate. -/
inductive Reads (sel : Selector) (b : Block) (id : NodeId) : Tile → NodeId → Prop
  | fixed {n : Node} {reads : List NodeId} {t : Tile} {x : NodeId} (found : b.node? id = some n)
      (lowered : Lowering.Fixed b id n reads t) (read : x ∈ reads) : Reads sel b id t x
  | pattern {n : Node} {stored : Option Operation} {p : Pattern} {m : Match} {i : Instantiation}
      {x : NodeId} (found : b.node? id = some n) (candidate : p ∈ sel.tables.candidates n.op stored)
      (matched : sel.tables.matchAt b id p = .ok (some m)) (instantiated : m.Instantiates b i)
      (read : x ∈ i.reads b) : Reads sel b id i.toTile x

/-- A tile that reads a node was made from nodes with this one among them, be it by a fixed lowering
or by an instantiation. -/
theorem Reads.exists_madeFrom (ht : sel.tables.Distinct) (hexplicit : sel.tables.Explicit)
    (h : sel.Reads b id tile x) : ∃ reads, tile.MadeFrom b reads ∧ x ∈ reads := by
  cases h with
  | fixed found lowered read => exact ⟨_, lowered.madeFrom, read⟩
  | pattern found candidate matched instantiated read =>
    have haccounted :=
      Tables.accounted_of_instantiates ht hexplicit candidate matched instantiated
    exact ⟨_, haccounted.madeFrom, read⟩

/-- Every tile that is offered was made from some nodes, and all of these are nodes that it reads.
-/
theorem Offered.exists_madeFrom (ht : sel.tables.Distinct) (hexplicit : sel.tables.Explicit)
    (h : sel.Offered b id tile) :
    ∃ reads, tile.MadeFrom b reads ∧ ∀ x ∈ reads, sel.Reads b id tile x := by
  cases h with
  | fixed found lowered => exact ⟨_, lowered.madeFrom, fun x hx => .fixed found lowered hx⟩
  | pattern found candidate matched instantiated =>
    have haccounted :=
      Tables.accounted_of_instantiates ht hexplicit candidate matched instantiated
    exact ⟨_, haccounted.madeFrom, fun x hx => .pattern found candidate matched instantiated hx⟩

/-- An offered tile declares its reads exactly if it was made to read nothing that it covers besides
its root. A read of a covered node is dropped from the inputs; one of the root goes into its own
result. -/
theorem Offered.declaresReads_iff (ht : sel.tables.Distinct) (hexplicit : sel.tables.Explicit)
    (hb : b.DistinctValues) (h : sel.Offered b id tile) :
    tile.DeclaresReads b ↔ ∀ x, sel.Reads b id tile x → x ∈ tile.covered → x = tile.root := by
  constructor
  · intro hdeclares x hx
    obtain ⟨reads, hmade, hmem⟩ := hx.exists_madeFrom ht hexplicit
    exact (hmade.declaresReads_iff hb).1 hdeclares x hmem
  · intro hreads
    obtain ⟨reads, hmade, hmem⟩ := h.exists_madeFrom ht hexplicit
    exact (hmade.declaresReads_iff hb).2 fun x hx => hreads x (hmem x hx)

/-! ## The bundled patterns -/

/-- Five plus itself. -/
def fiveTwice : Block := Build.finish ⟨"sums", "f", "entry"⟩ do
  let five ← Build.int 5 .i32
  Build.op .add .i32 [five, five]

set_option maxRecDepth 1000000 in
/-- Compiling the bundled file shows that its patterns are explicit, and selecting with them shows
a tile that declares what it reads and one that does not. -/
theorem x86_check :
    ∃ ps, x86Tables = .ok (.ofPatterns ps)
      ∧ (decide (∀ p ∈ ps, p.Explicit (.ofPatterns ps))
        && (hasTile ⟨.ofPatterns ps, .default⟩ plusFive 2
          (fun t => t.covered == .ofList [1, 2] && decide (t.DeclaresReads plusFive))
        && hasTile ⟨.ofPatterns ps, .default⟩ fiveTwice 1
          (fun t => !decide (t.DeclaresReads fiveTwice)))) = true :=
  @Tables.ofSource_of_check x86Source _ _ rfl (by decide +kernel)

/-- The patterns of the bundled file are explicit. -/
theorem explicit_x86 {t : Tables} (h : x86Tables = .ok t) : t.Explicit := by
  obtain ⟨ps, hps, hcheck⟩ := x86_check
  rw [h] at hps
  cases hps
  rw [Bool.and_eq_true, decide_eq_true_iff] at hcheck
  exact ⟨ps, rfl, hcheck.1⟩

/-- **Which tiles declare what they read.** With the bundled patterns and all settings, and values
that are distinct, a tile of a node declares its reads exactly if no node that it was made to read
is covered by it, the root excepted. -/
theorem selectNode_declaresReads_iff (ht : x86Tables = .ok sel.tables) (hb : b.DistinctValues)
    (h : sel.selectNode b id s = .ok (tiles, s')) (htile : tile ∈ tiles) :
    tile.DeclaresReads b ↔ ∀ x, sel.Reads b id tile x → x ∈ tile.covered → x = tile.root :=
  (accepted_selectNode h tile htile).1.declaresReads_iff (Tables.distinct_of_ofSource ht)
    (explicit_x86 ht) hb

/-- The sum of an argument and five has a tile that takes in the number. It declares what it
reads, and so nothing that it was made to read is covered. -/
theorem selectNode_declaresReads_plusFive :
    ∃ sel : Selector, x86Tables = .ok sel.tables ∧ plusFive.DistinctValues
      ∧ ∃ tiles s', sel.selectNode plusFive 2 .start = .ok (tiles, s')
          ∧ ∃ tile ∈ tiles, tile.covered = .ofList [1, 2] ∧ tile.DeclaresReads plusFive
              ∧ ∀ x, sel.Reads plusFive 2 tile x → x ∈ tile.covered → x = tile.root := by
  obtain ⟨ps, hps, hcheck⟩ := x86_check
  rw [Bool.and_eq_true, Bool.and_eq_true] at hcheck
  -- The constant is covered and stands in the tile as a number, so nothing that is covered is read.
  obtain ⟨tiles, s', hrun, tile, htile, htest⟩ := exists_tile_of_hasTile hcheck.2.1
  rw [Bool.and_eq_true, beq_iff_eq, decide_eq_true_iff] at htest
  have hdistinct : plusFive.DistinctValues := Block.distinctValues_of_check (by decide)
  exact ⟨_, hps, hdistinct, tiles, s', hrun, tile, htile, htest.1, htest.2,
    (selectNode_declaresReads_iff hps hdistinct hrun htile).1 htest.2⟩

/-- **A number that is added to itself is read and covered.** One operand of the sum is matched as a
value and the other as a number; both are the same node, which is covered and yet occurs as a value.
-/
theorem not_declaresReads_fiveTwice :
    ∃ sel : Selector, x86Tables = .ok sel.tables ∧ fiveTwice.DistinctValues ∧ fiveTwice.InRange
      ∧ ∃ tiles s', sel.selectNode fiveTwice 1 .start = .ok (tiles, s')
          ∧ ∃ tile ∈ tiles, ¬ tile.DeclaresReads fiveTwice := by
  obtain ⟨ps, hps, hcheck⟩ := x86_check
  rw [Bool.and_eq_true, Bool.and_eq_true] at hcheck
  obtain ⟨tiles, s', hrun, tile, htile, htest⟩ := exists_tile_of_hasTile hcheck.2.2
  rw [Bool.not_eq_true', decide_eq_false_iff_not] at htest
  exact ⟨_, hps, Block.distinctValues_of_check (by decide), Block.Ordered.inRange (by decide),
    tiles, s', hrun, tile, htile, htest⟩

end Selector

end TileSelect
