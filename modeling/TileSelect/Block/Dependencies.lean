import TileSelect.Block.Basic
/-!
What a node depends on.

A node depends on its operands and its chain, and on all that those depend on. Nodes may stand
in any order and may even form cycles, so the dependencies of a node are found by a walk that
remembers where it has been. The walk enters each node at most once, which bounds its length by
the number of nodes; positions that do not exist are passed over.
-/

set_option autoImplicit false

namespace TileSelect

/-- The operands and the chain of a node. -/
def Node.edges (n : Node) : List NodeId := n.inputs ++ n.chain.toList

namespace Block

/-- The nodes that a node directly depends on, as far as they exist. -/
def successors (b : Block) (id : NodeId) : List NodeId :=
  match b.node? id with
  | some n => n.edges.filter fun e => decide (e < b.size)
  | none => []

/-- Adds those of some nodes that were not seen before, to what was seen and to what is still to
be visited. -/
def discover : List NodeId → List NodeId × NodeSet → List NodeId × NodeSet
  | [], state => state
  | n :: ns, (pending, seen) =>
    if seen.contains n then discover ns (pending, seen)
    else discover ns (n :: pending, seen.insert n)

/-- What has been seen after visiting at most `steps` pending nodes. -/
def walk (b : Block) : Nat → List NodeId × NodeSet → NodeSet
  | 0, (_, seen) => seen
  | _ + 1, ([], seen) => seen
  | steps + 1, (id :: pending, seen) =>
    b.walk steps (discover (b.successors id) (pending, seen))

/-- Every node that a node depends on, directly or not. -/
def dependencies (b : Block) (id : NodeId) : NodeSet :=
  -- The start is not marked as seen: a node depends on itself if it is on a cycle.
  b.walk (b.size + 1) ([id], .empty)

end Block

end TileSelect
