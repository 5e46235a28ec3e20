import TileSelect.Expansion.SubstFault
import TileSelect.Verdict
/-!
What is remembered while the tiles of a block are selected.

Temporaries are numbered through a whole block. The number of a temporary is the count of those
allocated before it, whether the template that asked for it was kept in the end or not, and it
wraps at 32 bits. Beside that there is a log of what was considered and dropped.
-/

set_option autoImplicit false

namespace TileSelect

/-- Something that was considered and dropped. -/
inductive Event where
  /-- A combination of alternatives for which a pattern's template makes no sense. -/
  | dropped (node : NodeId) (pattern : PatternId) (fault : SubstFault)
  /-- A tile that may not be emitted. -/
  | rejected (tile : Tile) (why : Rejection)
  /-- A tile that does the same as one kept before. -/
  | duplicate (tile : Tile)
  /-- A tile beyond the number to be kept. -/
  | surplus (tile : Tile)

/-- The count of temporaries allocated so far and the log. -/
structure Session where
  allocated : Nat
  log : Array Event

namespace Session

/-- Nothing allocated and nothing logged. -/
def start : Session := ⟨0, #[]⟩

/-- Adds to the log. -/
def note (s : Session) (e : Event) : Session := { s with log := s.log.push e }

/-- The number of the temporary that is allocated after `allocated` others. -/
def tempNumber (allocated : Nat) : Nat := allocated % UInt32.size

end Session

end TileSelect
