import TileSelect.Proofs.Selection.Subgraph
/-!
Accepted tiles and the order of side effects.

A tile is emitted as one unit. If something outside has to run before one part of it and after
another part, there is no place for the unit; `Tile.KeepsOrder` says that nothing outside is in
that position. The validator looks for such nodes from two ends. From the values that the tile
reads it follows all dependencies. Of the chains that leave the tile it only counts the nodes they
leave from.

So the first end is settled: nothing that is read leads back into the tile. At the second end
nothing is settled but that at most one covered node is chained outside. Where that chain leads,
whether back into the tile by way of other chains, is not looked at, and a tile with such a detour
is accepted (`not_keepsOrder_overwrite`). The theorem below says that this is the only gap: a tile
keeps the order exactly if what its covered nodes are chained to does not lead back into it, and
neither do operands that were not declared because a node has more or fewer of them than its
operation takes.
-/

set_option autoImplicit false

namespace TileSelect

open Relation

/-! ## The property -/

/-- The node, or one it has to wait for, is chained into a set. -/
def Block.LeadsInto (b : Block) (s : NodeSet) (x : NodeId) : Prop :=
  ∃ y, ReflTransGen b.Edge x y ∧ ∃ z ∈ s, b.Chain y z

/-- Nothing outside the tile that part of it waits for has itself to wait for part of it. -/
def Tile.KeepsOrder (b : Block) (t : Tile) : Prop :=
  ∀ c ∈ t.covered, ∀ x, b.Edge c x → ¬ x ∈ t.covered → ¬ b.LeadsInto t.covered x

/-! ## The verdict -/

namespace Block

variable {b : Block} {t : Tile} {s : NodeSet} {x : NodeId}

/-- A node that is found not to be chained into a set is chained to no node of it. -/
theorem not_chain_of_chainsTo (h : b.chainsTo s.contains x = .ok false) :
    ∀ z ∈ s, ¬ b.Chain x z := by
  rintro z hz ⟨n, hn, hchain⟩
  rw [chainsTo, node_eq_ok.2 hn, ok_bind, pure_eq_ok, hchain] at h
  exact Bool.false_ne_true (h.symm.trans (NodeSet.contains_iff.2 hz))

/-- Looking from a node finds nothing chained into the set only if there is nothing: the search goes
through all that the node depends on. -/
theorem not_leadsInto_of_chainedInto (hr : b.InRange) (h : b.chainedInto s x = .ok none) :
    ¬ b.LeadsInto s x := by
  rintro ⟨y, hxy, z, hz, hyz⟩
  have hall := forall_of_findM?_none h
  refine not_chain_of_chainsTo (hall y ?_) z hz hyz
  rcases reflTransGen_iff_eq_or_transGen.1 hxy with rfl | hxy
  · exact List.mem_cons_self
  · rw [← successor_eq_edge hr] at hxy
    exact List.mem_cons_of_mem x (NodeSet.mem_def.1 (mem_dependencies.2 hxy))

/-- **What the validator has made sure of.** -/
structure Vetted (b : Block) (t : Tile) : Prop where
  standalone : ∀ p ∈ t.parts, p.isStandalone = true
  /-- At most one covered node is chained to a node outside. -/
  one_chain : ∀ c ∈ t.covered, ∀ c' ∈ t.covered, ∀ x x', b.Chain c x → b.Chain c' x' →
    ¬ x ∈ t.covered → ¬ x' ∈ t.covered → c = c'
  inputs : ∀ x ∈ t.inputs, ¬ b.LeadsInto t.covered x

theorem chainsTo_of_chain {test : NodeId → Bool} {z : NodeId} (h : b.Chain x z)
    (htest : test z = true) : b.chainsTo test x = .ok true := by
  obtain ⟨n, hn, hchain⟩ := h
  rw [chainsTo, node_eq_ok.2 hn, ok_bind, hchain]
  exact congrArg Except.ok htest

/-- A verdict of the validator says what it has made sure of: at most one node of the tile is
chained to the outside, and nothing that is read is chained into it. -/
theorem vetted_of_validate (hr : b.InRange) (h : b.validate t = .ok none) : b.Vetted t := by
  unfold validate at h
  split at h
  · cases h
  · rename_i hfind
    obtain ⟨outside, houtside, h⟩ := bind_eq_ok.1 h
    split at h
    · cases h
    · rename_i hlength
      refine ⟨fun p hp => ?_, fun c hc c' hc' x x' hx hx' hout hout' => ?_, fun x hx => ?_⟩
      · have hp' := List.find?_eq_none.1 hfind p hp
        simpa using hp'
      · -- Both are among the nodes chained outside, and there is at most one of these.
        have hmem : ∀ {k z}, k ∈ t.covered → b.Chain k z → ¬ z ∈ t.covered → k ∈ outside := by
          intro k z hk hkz hz
          have htest : (!t.covered.contains z) = true := by
            rw [Bool.not_eq_true', ← Bool.not_eq_true, NodeSet.contains_iff]
            exact hz
          exact (mem_of_filterM houtside k).2 ⟨hk, chainsTo_of_chain hkz htest⟩
        have hpos : 0 < outside.length := List.length_pos_of_mem (hmem hc hx hout)
        obtain ⟨k, rfl⟩ := List.length_eq_one_iff.1 (by omega : outside.length = 1)
        rw [List.mem_singleton.1 (hmem hc hx hout), List.mem_singleton.1 (hmem hc' hx' hout')]
      · have hnone := forall_of_findSomeM?_none h x hx
        rw [chainedInput, bind_eq_ok] at hnone
        obtain ⟨via, hvia, hnone⟩ := hnone
        rw [pure_eq_ok, Option.map_eq_none_iff] at hnone
        rw [hnone] at hvia
        exact not_leadsInto_of_chainedInto hr hvia

end Block

/-! ## Tiles -/

/-- **Which tiles keep the order.** With operands and chains inside the block, a tile of a node
keeps the order of side effects exactly if nothing outside that a covered node is chained to leads
back into the tile, and no operand does that belongs to a covered node with the wrong number of
operands. -/
theorem Selector.selectNode_keepsOrder_iff {sel : Selector} {b : Block} {id : NodeId}
    {s s' : Session} {tiles : List Tile} {tile : Tile} {source : String}
    (ht : Tables.ofSource source = .ok sel.tables) (hr : b.InRange)
    (h : sel.selectNode b id s = .ok (tiles, s')) (htile : tile ∈ tiles) :
    tile.KeepsOrder b
      ↔ ∀ c ∈ tile.covered, ∀ x, ¬ x ∈ tile.covered →
          b.Chain c x ∨ (b.Operand c x ∧ ¬ b.Fits c) → ¬ b.LeadsInto tile.covered x := by
  obtain ⟨hoffered, hverdict⟩ := accepted_selectNode h tile htile
  obtain ⟨-, -, hgraph⟩ := hoffered.subgraph (Tables.distinct_of_ofSource ht)
  have hvetted := Block.vetted_of_validate hr hverdict
  constructor
  · rintro hkeeps c hc x hx (hchain | ⟨hoperand, -⟩)
    · exact hkeeps c hc x (.inr hchain) hx
    · exact hkeeps c hc x (.inl hoperand) hx
  · rintro hgap c hc x (hoperand | hchain) hx
    · by_cases hfits : b.Fits c
      · -- All operands are declared here, so one that is not covered was looked at.
        rcases hgraph.closed c hc hfits x hoperand with hcovered | hinput
        · exact absurd hcovered hx
        · exact hvetted.inputs x hinput
      · exact hgap c hc x hx (.inr ⟨hoperand, hfits⟩)
    · exact hgap c hc x hx (.inl hchain)

/-! ## An update with and without a detour -/

namespace Selector

/-- A sum that is stored where one of its operands was loaded from, in one instruction. -/
def updates : String :=
  "update: (STORE (<p> LOCAL) (ADD (LOAD p) (<v> LOCAL))) -> [ADD [<p>], <v>];"

/-- A word in memory is increased; the store waits for the load. -/
def increase : Block := Build.finish ⟨"updates", "f", "entry"⟩ do
  let p ← Build.arg 0 .i32
  let v ← Build.arg 1 .i32
  let old ← Build.load .i32 p none
  let new ← Build.op .add .i32 [old, v]
  Build.store p new (some old)

/-- The same, but in between another value is stored at the address. -/
def overwrite : Block := Build.finish ⟨"updates", "f", "entry"⟩ do
  let p ← Build.arg 0 .i32
  let v ← Build.arg 1 .i32
  let old ← Build.load .i32 p none
  let between ← Build.store p v (some old)
  let new ← Build.op .add .i32 [old, v]
  Build.store p new (some between)

set_option maxRecDepth 10000 in
/-- Selecting for the store shows a tile that covers the load, the sum and the store. -/
theorem exists_tile_increase :
    ∃ sel : Selector, Tables.ofSource updates = .ok sel.tables
      ∧ ∃ tiles s', sel.selectNode increase 4 .start = .ok (tiles, s')
          ∧ ∃ tile ∈ tiles, (tile.covered == .ofList [2, 3, 4]) = true :=
  @exists_tile_of_check increase 4 updates _ .default _ rfl (by decide +kernel)

/-- Without a detour the update is one instruction and keeps the order. The one chain stays inside
the tile, so no node outside comes between two that are covered. -/
theorem selectNode_keepsOrder_increase :
    ∃ sel : Selector, Tables.ofSource updates = .ok sel.tables ∧ increase.InRange
      ∧ ∃ tiles s', sel.selectNode increase 4 .start = .ok (tiles, s')
          ∧ ∃ tile ∈ tiles, tile.covered = .ofList [2, 3, 4] ∧ tile.KeepsOrder increase := by
  obtain ⟨sel, hsel, tiles, s', hrun, tile, htile, hcovered⟩ := exists_tile_increase
  rw [beq_iff_eq] at hcovered
  have hrange : increase.InRange := Block.Ordered.inRange (by decide)
  refine ⟨sel, hsel, hrange, tiles, s', hrun, tile, htile, hcovered, ?_⟩
  rw [selectNode_keepsOrder_iff hsel hrange hrun htile, hcovered]
  have hcases : ∀ c ∈ NodeSet.ofList [2, 3, 4], c = 2 ∨ c = 3 ∨ c = 4 := by simp
  -- The chain of the last store goes to the load, which is covered; the other two have none.
  rintro c hc x hx (⟨n, hn, hchain⟩ | ⟨-, hfits⟩)
  · rcases hcases c hc with rfl | rfl | rfl <;> cases hn
    · cases hchain
    · cases hchain
    · obtain rfl : 2 = x := Option.some.inj hchain
      exact absurd (by decide) hx
  · refine absurd (fun n k hn hk => ?_) hfits
    rcases hcases c hc with rfl | rfl | rfl <;> cases hn <;> cases hk <;> rfl

set_option maxRecDepth 10000 in
/-- It does so with the other store in between as well. -/
theorem exists_tile_overwrite :
    ∃ sel : Selector, Tables.ofSource updates = .ok sel.tables
      ∧ ∃ tiles s', sel.selectNode overwrite 5 .start = .ok (tiles, s')
          ∧ ∃ tile ∈ tiles, (tile.covered == .ofList [2, 4, 5]) = true :=
  @exists_tile_of_check overwrite 5 updates _ .default _ rfl (by decide +kernel)

/-- **With a detour the update is accepted as well.** The store in between has to run after the
load and before the last store, and both are in the tile. -/
theorem not_keepsOrder_overwrite :
    ∃ sel : Selector, Tables.ofSource updates = .ok sel.tables
      ∧ overwrite.Acyclic ∧ overwrite.InRange
      ∧ ∃ tiles s', sel.selectNode overwrite 5 .start = .ok (tiles, s')
          ∧ ∃ tile ∈ tiles, ¬ tile.KeepsOrder overwrite := by
  obtain ⟨sel, hsel, tiles, s', hrun, tile, htile, hcovered⟩ := exists_tile_overwrite
  rw [beq_iff_eq] at hcovered
  have hordered : overwrite.Ordered := by decide
  refine ⟨sel, hsel, hordered.acyclic, hordered.inRange, tiles, s', hrun, tile, htile, ?_⟩
  intro hkeeps
  rw [Tile.KeepsOrder, hcovered] at hkeeps
  -- The last store is covered and waits for the other one, which is not covered and waits for the
  -- load.
  exact hkeeps 5 (by decide) 3 (.inr ⟨_, rfl, rfl⟩) (by decide)
    ⟨3, .refl, 2, by decide, _, rfl, rfl⟩

end Selector

end TileSelect
