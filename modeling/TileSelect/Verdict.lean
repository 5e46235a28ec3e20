import TileSelect.Block.Dependencies
import TileSelect.Tile
/-!
Which tiles may be emitted.

A tile is emitted as one unit, so everything it covers runs at the same point. That respects the
order of side effects only if the covered nodes wait for at most one node outside, and if no
value the tile reads depends on a node that itself has to wait for part of the tile. Besides,
only instructions and labels can be emitted at all.
-/

set_option autoImplicit false

namespace TileSelect

/-- Why a tile is rejected. -/
inductive Rejection where
  | notStandalone (part : Part)
  | conflictingChains (nodes : List NodeId)
  | chainIntoTile (input via : NodeId)
deriving DecidableEq

/-- The message of a rejection. -/
def Rejection.message : Rejection → String
  | .notStandalone part =>
    "top-level part `" ++ part.text ++ "` is not an instruction or label"
  | .conflictingChains nodes =>
    "covered nodes [" ++ ", ".intercalate (nodes.map fun id => "NodeId(" ++ id.repr ++ ")")
      ++ "] each chain to a node outside the tile"
  | .chainIntoTile input via =>
    "input " ++ nodeText input ++ " depends on " ++ nodeText via
      ++ ", which is chained into the tile"

namespace Block

/-- Whether a node is chained to a node that passes a test. -/
def chainsTo (b : Block) (test : NodeId → Bool) (id : NodeId) : Except Fault Bool := do
  let n ← b.node id
  return n.chain.any test

/-- The first of a node and its dependencies that is chained into a set. -/
def chainedInto (b : Block) (covered : NodeSet) (id : NodeId) : Except Fault (Option NodeId) :=
  (id :: (b.dependencies id).toList).findM? (b.chainsTo covered.contains)

/-- An input of a tile that must come after part of it, if there is one. -/
def chainedInput (b : Block) (covered : NodeSet) (input : NodeId) :
    Except Fault (Option Rejection) := do
  let via ← b.chainedInto covered input
  return via.map fun n => .chainIntoTile input n

/-- Why a tile may not be emitted; `none` if it may. -/
def validate (b : Block) (t : Tile) : Except Fault (Option Rejection) :=
  match t.parts.find? fun p => !p.isStandalone with
  | some part => .ok (some (.notStandalone part))
  | none => do
    let outside ← t.covered.toList.filterM (b.chainsTo fun target => !t.covered.contains target)
    -- One node to wait for is no conflict: the whole tile can wait for it.
    if 1 < outside.length then return some (.conflictingChains outside)
    else t.inputs.toList.findSomeM? (b.chainedInput t.covered)

end Block

end TileSelect
