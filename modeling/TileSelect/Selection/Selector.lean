import TileSelect.Expansion.Instantiation
import TileSelect.Lowering
import TileSelect.Match.Attempt
import TileSelect.Selection.Settings
/-!
The tiles of nodes, blocks and functions.

For a node, the fixed lowerings are offered first and then, candidate by candidate, every
instantiation of every match. An offered tile is kept unless enough tiles are kept already, it
may not be emitted, or it does the same as one that is kept. The search ends as soon as there
are enough tiles, but an instantiation that has been worked out by then has taken its
temporaries.
-/

set_option autoImplicit false

namespace TileSelect

/-- A node for which there is no tile. -/
structure CoverageError where
  node : NodeId
  op : Operation
  place : BlockPlace
deriving DecidableEq

/-- The message of an uncovered node. -/
def CoverageError.message (e : CoverageError) : String :=
  "no tile covers node " ++ nodeText e.node ++ " (" ++ e.op.name ++ ") in block `"
    ++ e.place.blockName ++ "` of function `" ++ e.place.functionName ++ "` in module `"
    ++ e.place.moduleName ++ "`"

/-- Selects tiles with a set of patterns. -/
structure Selector where
  tables : Tables
  settings : Settings

namespace Selector

/-- The tiles kept so far, the latest first, beside the session. -/
abbrev Progress := List Tile × Session

/-- Keeps a tile or says why not. -/
def offer (sel : Selector) (b : Block) (tile : Tile) : Progress → Except Fault Progress
  | (kept, s) =>
    if sel.settings.isFull kept.length then .ok (kept, s.note (.surplus tile))
    else do
      match ← b.validate tile with
      | some why => return (kept, s.note (.rejected tile why))
      | none =>
        if sel.settings.dedup && kept.any (·.sameLowering tile) then
          return (kept, s.note (.duplicate tile))
        else return (tile :: kept, s)

/-- Offers the next instantiation, unless there are enough tiles. The tiles kept may be a fault
instead, which ends the walk too. -/
def offerNext (sel : Selector) (b : Block) (i : Instantiation) :
    Except Fault (List Tile) × Session → Flow (Except Fault (List Tile) × Session)
  | (.error fault, s) => .stop (.error fault, s)
  | (.ok kept, s) =>
    -- There is no room for this one, which has taken its temporaries all the same.
    if sel.settings.isFull kept.length then .stop (.ok kept, s)
    else
      match sel.offer b i.toTile (kept, s) with
      | .ok (kept, s) => .next (.ok kept, s)
      | .error fault => .stop (.error fault, s)

/-- Offers the instantiations of a match. -/
def offerMatch (sel : Selector) (b : Block) (m : Match) : Progress → Except Fault Progress
  | (kept, s) =>
    let (options, s) := Match.optionsOf b m.submatches s
    match (m.visit b (sel.offerNext b) options (.ok kept, s)).state with
    | (.ok kept, s) => .ok (kept, s)
    | (.error fault, _) => .error fault

/-- Offers what the candidates make of a node, until there are enough tiles. -/
def offerCandidates (sel : Selector) (b : Block) (id : NodeId) :
    List Pattern → Progress → Except Fault Progress
  | [], progress => .ok progress
  | p :: ps, (kept, s) =>
    if sel.settings.isFull kept.length then .ok (kept, s)
    else do
      match ← sel.tables.matchAt b id p with
      | some m =>
        let progress ← sel.offerMatch b m (kept, s)
        sel.offerCandidates b id ps progress
      | none => sel.offerCandidates b id ps (kept, s)

/-- The operation of the value that a store stores. -/
def storedOp (b : Block) (n : Node) : Except Fault (Option Operation) :=
  match n.op, n.inputs with
  | .store, _ :: value :: _ => do
    let v ← b.node value
    return some v.op
  | _, _ => .ok none

/-- The tiles of a node, in the order in which they were found; there may be none. -/
def selectNode (sel : Selector) (b : Block) (id : NodeId) (s : Session) :
    Except Fault (List Tile × Session) := do
  let n ← b.node id
  -- Fixed lowerings are offered one by one even when there are enough, and logged as surplus.
  let fixed ← b.lower id
  let progress ← (fixed.getD []).foldlM (fun progress tile => sel.offer b tile progress) ([], s)
  let stored ← storedOp b n
  let (kept, s) ← sel.offerCandidates b id (sel.tables.candidates n.op stored) progress
  return (kept.reverse, s)

/-- The tiles of nodes in turn, up to the first that has none. -/
def selectNodes (sel : Selector) (b : Block) :
    List NodeId → Session → Except Fault (Except CoverageError (List (List Tile)) × Session)
  | [], s => .ok (.ok [], s)
  | id :: ids, s => do
    let (tiles, s) ← sel.selectNode b id s
    if tiles.isEmpty then
      let n ← b.node id
      return (.error ⟨id, n.op, b.place⟩, s)
    else
      let (rest, s) ← sel.selectNodes b ids s
      return (rest.map (tiles :: ·), s)

/-- The tiles of every node of a block. -/
def selectBlock (sel : Selector) (b : Block) :
    Except Fault (Except CoverageError (List (List Tile)) × Session) :=
  sel.selectNodes b b.ids .start

/-- The tiles of every node of every block; blocks do not affect each other. -/
def selectFunction (sel : Selector) :
    List Block → Except Fault (Except CoverageError (List (List (List Tile))))
  | [] => .ok (.ok [])
  | b :: bs => do
    match ← sel.selectBlock b with
    | (.error e, _) => return .error e
    | (.ok tiles, _) =>
      let rest ← sel.selectFunction bs
      return rest.map (tiles :: ·)

end Selector

end TileSelect
