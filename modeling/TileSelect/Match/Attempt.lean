import TileSelect.Block.Basic
import TileSelect.Match.Record
import TileSelect.Tables
/-!
Matching shapes against nodes.

An attempt takes a record and gives back whether the shape matched, with the record as the
attempt left it. Where a shape matches, the record has grown by what was matched. Where it does
not, the record may hold traces of the arguments that matched before one did not; whoever asked
drops it. A commutative operation is tried in the order of its operands and then exchanged, both
times from the record as it was, and leaves no trace if both fail.

A reference back matches by identity: it asks for the very node its identifier stands for, and
never for a node that merely computes the same.

The recursion follows the tree of the pattern. Only at an inclusion does it leave the tree, so
what an inclusion does is a parameter here, and the group's patterns come in afterwards, in
layers: `alternatives n` lets inclusions nest `n` deep. When the operands of the block form no
cycle and no group includes itself at its root, a nest of inclusions visits no node twice with
the same group, so `nodes * groups` layers are never used up.
-/

set_option autoImplicit false

namespace TileSelect

/-- The outcome of an attempt, and the record as it was left. -/
structure Attempt where
  matched : Bool
  record : Match

namespace Attempt

/-- Nothing matched and nothing changed. -/
def failed (r : Match) : Attempt := ⟨false, r⟩

/-- All matched. -/
def succeeded (r : Match) : Attempt := ⟨true, r⟩

end Attempt

/-- The records of all alternatives of a group that match at a node. -/
abbrev Inclusion := String → NodeId → Except Fault (List Match)

/-- Whether a node yields a value of the width asked for, if any is. -/
def Block.hasType (b : Block) (id : NodeId) (ty : Option ValueType) : Bool :=
  match ty with
  | some t => b.typeOf? id == some t
  | none => true

namespace Shape

mutual

/-- Matches a shape at a node. -/
def attempt (b : Block) (included : Inclusion) : Shape → NodeId → Match → Except Fault Attempt
  | .node ident ty op args, id, r => do
    let n ← b.node id
    if b.hasType id ty && n.op == op && n.inputs.length == args.length then
      let first ← attemptAll b included args n.inputs r
      if first.matched then
        return .succeeded ((first.record.cover id).bind ident id)
      else if op.isCommutative && args.length == 2 then
        -- The second order starts from the record as it was before the first.
        let second ← attemptAll b included args n.inputs.reverse r
        if second.matched then
          return .succeeded ((second.record.cover id).bind ident id)
        else return .failed r
      -- In a fixed order, what the arguments before the failing one left behind stays.
      else return first
    else return .failed r
  | .producer ident ty, id, r => do
    let n ← b.node id
    if b.hasType id ty && n.isProducer then
      return .succeeded ((r.bind ident id).read id)
    else return .failed r
  | .constant ident ty value, id, r => do
    let n ← b.node id
    if b.hasType id ty && n.op == .constant && n.isProducer
        && (value.isNone || n.literal? == value) then
      return .succeeded ((r.bind ident id).cover id)
    else return .failed r
  | .inclusion ident group, id, r => do
    let _ ← b.node id
    let ms ← included group id
    if ms.isEmpty then return .failed r else return .succeeded (r.addAlternatives ident ms)
  | .backreference ident, id, r => do
    let _ ← b.node id
    if r.resolve? ident == some id then return .succeeded r else return .failed r

/-- Matches shapes at nodes, pair by pair, up to the first that fails. -/
def attemptAll (b : Block) (included : Inclusion) :
    List Shape → List NodeId → Match → Except Fault Attempt
  | s :: ss, id :: ids, r => do
    let a ← attempt b included s id r
    if a.matched then attemptAll b included ss ids a.record else return a
  | _, _, r => return .succeeded r

end

end Shape

/-- Matches a pattern at a node, given what inclusions do. -/
def Pattern.matchWith (b : Block) (included : Inclusion) (id : NodeId) (p : Pattern) :
    Except Fault (Option Match) := do
  let a ← p.root.attempt b included id (.start p id)
  return if a.matched then some a.record else none

namespace Tables

/-- The alternatives of a group that match at a node, with inclusions at most `n` deep. -/
def alternatives (t : Tables) (b : Block) : Nat → Inclusion
  | 0 => fun group _ => .error (.endlessInclusion group)
  | n + 1 => fun group id =>
    (t.group group).filterMapM (Pattern.matchWith b (t.alternatives b n) id)

/-- How deep inclusions may nest before they must be endless. -/
def inclusionDepth (t : Tables) (b : Block) : Nat := b.size * t.groupNames.length + 1

/-- The alternatives of a group that match at a node. -/
def included (t : Tables) (b : Block) : Inclusion := t.alternatives b (t.inclusionDepth b)

/-- Matches a pattern at a node. -/
def matchAt (t : Tables) (b : Block) (id : NodeId) (p : Pattern) : Except Fault (Option Match) :=
  p.matchWith b (t.included b) id

end Tables

end TileSelect
