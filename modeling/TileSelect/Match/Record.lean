import TileSelect.Keyed
import TileSelect.NodeSet
import TileSelect.Pattern.Shape
/-!
Match records: how a pattern lies on a block.

A record says which node each captured identifier stands for, which nodes the pattern itself
covers and which values it leaves to others. An identifier that includes a group stands for
every alternative of the group that matched, each with a record of its own; choosing among them
is left to instantiation, so the sets of a record never mention the nodes of its alternatives.
-/

set_option autoImplicit false

namespace TileSelect

/-- How a pattern lies on the nodes of a block. -/
structure Match where
  /-- The pattern that was matched. -/
  pattern : Pattern
  /-- The node that the top of the pattern lies on. -/
  root : NodeId
  /-- The nodes of captured identifiers, in the order of the identifiers. -/
  bindings : List (String × NodeId)
  /-- The alternatives of included groups, in the order of their identifiers. -/
  submatches : List (String × List Match)
  /-- The nodes that the pattern computes. -/
  covered : NodeSet
  /-- The nodes whose values the pattern reads. -/
  inputs : NodeSet

namespace Match

/-- The record before anything is matched. -/
def start (p : Pattern) (root : NodeId) : Match := ⟨p, root, [], [], .empty, .empty⟩

/-- Binds an identifier, if there is one. -/
def bind (m : Match) (ident : Option String) (id : NodeId) : Match :=
  match ident with
  | some i => { m with bindings := Keyed.insert i id m.bindings }
  | none => m

/-- Adds a node that the pattern computes. -/
def cover (m : Match) (id : NodeId) : Match := { m with covered := m.covered.insert id }

/-- Adds a node that the pattern reads. -/
def read (m : Match) (id : NodeId) : Match := { m with inputs := m.inputs.insert id }

/-- Records the alternatives of an included group. -/
def addAlternatives (m : Match) (ident : String) (alternatives : List Match) : Match :=
  { m with submatches := Keyed.insert ident alternatives m.submatches }

/-- The node that an identifier stands for: that of its first alternative, or the one bound. -/
def resolve? (m : Match) (ident : String) : Option NodeId :=
  match Keyed.get? ident m.submatches with
  | some (first :: _) => some first.root
  | _ => Keyed.get? ident m.bindings

end Match

end TileSelect
