import TileSelect.Text.Unsigned
/-!
Settings of selection and the flags that change them.
-/

set_option autoImplicit false

namespace TileSelect

/-- How many tiles are kept for a node, and whether equal ones are kept. -/
structure Settings where
  /-- At most so many tiles; `none` for all of them. -/
  maxTiles : Option Nat
  /-- Whether a tile that does the same as one kept before is dropped. -/
  dedup : Bool
deriving DecidableEq

/-- What a command-line argument does to the settings. -/
inductive FlagEffect where
  /-- It is not a flag of selection. -/
  | unrelated
  /-- It changes the settings. -/
  | change (settings : Settings)
  /-- It asks for a number of tiles that is none. -/
  | invalid (value : String)
deriving DecidableEq

namespace Settings

/-- Up to 64 tiles for a node, no two of them equal. -/
def default : Settings := ⟨some 64, true⟩

/-- Whether `count` tiles are enough. At least one tile is always let through, so no limit takes
away the last tile of a node. -/
def isFull (s : Settings) (count : Nat) : Bool :=
  match s.maxTiles with
  | some limit => decide (max limit 1 ≤ count)
  | none => false

/-- What follows a given beginning of a text. -/
def after? (beginning text : List Char) : Option (List Char) :=
  if beginning.isPrefixOf text then some (text.drop beginning.length) else none

/-- What an argument does: `--max-tiles=N` and `--max-tiles=none` set the limit, `--no-dedup`
keeps equal tiles. -/
def flag (s : Settings) (arg : String) : FlagEffect :=
  match after? "--max-tiles=".toList arg.toList with
  | some value =>
    if value = "none".toList then .change { s with maxTiles := none }
    else
      match unsignedBelow? UInt64.size value with
      -- Zero is not a number of tiles that can be asked for.
      | some (n + 1) => .change { s with maxTiles := some (n + 1) }
      | _ => .invalid (String.ofList value)
  | none => if arg = "--no-dedup" then .change { s with dedup := false } else .unrelated

/-- The settings after an argument. -/
def apply (s : Settings) (arg : String) : Settings :=
  match s.flag arg with
  | .change s' => s'
  | .unrelated | .invalid _ => s

/-- The settings that arguments ask for; what is no flag of selection is passed over. -/
def ofArgs (args : List String) : Settings := args.foldl apply default

end Settings

end TileSelect
