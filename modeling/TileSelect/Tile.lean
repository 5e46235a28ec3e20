import TileSelect.Asm.Text
import TileSelect.NodeSet
import TileSelect.Pattern.Shape
/-!
Tiles: what selection offers for a node.

A tile computes the nodes it covers, among them its root, and reads the values of its inputs,
which other tiles have to compute.
-/

set_option autoImplicit false

namespace TileSelect

/-- The position of a node, as output names it. -/
def nodeText (id : NodeId) : String := "n" ++ id.repr

/-- A fixed lowering. -/
inductive IntrinsicKind where
  | arg
  | constant
  | slot
  | select
  /-- A select together with the comparison that decides it. -/
  | selectCompare
  | call
  | jump
  | branch
  | ret
  | entry
deriving DecidableEq

/-- How output names a fixed lowering. -/
def IntrinsicKind.name : IntrinsicKind → String
  | .arg => "Arg"
  | .constant => "Constant"
  | .slot => "Slot"
  | .select => "Select"
  | .selectCompare => "SelectCompare"
  | .call => "Call"
  | .jump => "Jump"
  | .branch => "Branch"
  | .ret => "Return"
  | .entry => "Entry"

/-- Where a tile comes from. -/
inductive TileSource where
  | intrinsic (kind : IntrinsicKind)
  | pattern (id : PatternId)
deriving DecidableEq

/-- How output names where a tile comes from. -/
def TileSource.text : TileSource → String
  | .intrinsic kind => "intrinsic " ++ kind.name
  | .pattern id => id.text

/-- A lowering of the part of a block below its root. -/
structure Tile where
  root : NodeId
  covered : NodeSet
  inputs : NodeSet
  parts : List Part
  source : TileSource
deriving DecidableEq

namespace Tile

/-- The written forms of the parts. -/
def asm (t : Tile) : List String := t.parts.map Part.text

/-- Whether two tiles do the same, wherever they come from. -/
def sameLowering (t u : Tile) : Bool :=
  t.parts == u.parts && t.covered == u.covered && t.inputs == u.inputs

/-- `root [source]: part; part` -/
def text (t : Tile) : String :=
  nodeText t.root ++ " [" ++ t.source.text ++ "]:"
    ++ (if t.parts.isEmpty then "" else " " ++ "; ".intercalate t.asm)

end Tile

end TileSelect
