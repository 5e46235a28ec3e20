import TileSelect.Pattern.Text
import TileSelect.Report
import TileSelect.Samples
import TileSelect.Selection.Selector
import TileSelect.Tables.X86
/-!
The command line.

A command is a value, read off the arguments; running it is a function of what the files hold.
It yields everything that is observed of a run: the two output texts and the exit code. Reading
the files and writing the texts is all that is left to do outside.
-/

set_option autoImplicit false

namespace TileSelect

/-- What reading a file finds. -/
inductive FileContent where
  /-- There is no such file. -/
  | missing
  /-- There is a file, but its bytes are not text. -/
  | notText
  /-- There is a file, but it may not be read. -/
  | denied
  /-- Reading fails for another reason. -/
  | unreadable (reason : String)
  | text (content : String)

/-- What the bytes of a file hold. -/
def FileContent.ofBytes (bytes : ByteArray) : FileContent :=
  match String.fromUTF8? bytes with
  | some content => .text content
  | none => .notText

/-- What is observed of a run. -/
structure Outcome where
  output : String
  errors : String
  code : Nat
deriving DecidableEq

namespace Outcome

/-- A run that only writes output. -/
def success (output : String) : Outcome := ⟨output, "", 0⟩

/-- A run that only says why it failed. -/
def failure (errors : String) : Outcome := ⟨"", errors, 1⟩

end Outcome

/-- What the arguments ask for. -/
inductive Command where
  | usage
  | version
  /-- Compile a pattern file, if one is named, and say what it contains. -/
  | check (path : Option String)
  /-- Compile a pattern file, if one is named, and print its patterns. -/
  | dump (path : Option String)
  /-- Say what the bundled pattern file contains. -/
  | builtin
  /-- Select tiles for the sample blocks, with a pattern file or with the bundled one. -/
  | sample (path : Option String) (settings : Settings)
  | unknown (name : String)

namespace Command

/-! ## Arguments -/

/-- The first argument that is not a flag. -/
def firstPath (args : List String) : Option String :=
  args.find? fun a => a.toList.head? != some '-'

/-- The pattern file that a flag names; the first such flag counts. -/
def patternsFlag (args : List String) : Option String :=
  args.findSome? fun a => (Settings.after? "--patterns=".toList a.toList).map String.ofList

/-- The command that arguments ask for. -/
def ofArgs : List String → Command
  | [] => .usage
  | name :: args =>
    match name with
    | "check" => .check (firstPath args)
    | "dump" => .dump (firstPath args)
    | "builtin" => .builtin
    -- Flags that mean nothing here are passed over.
    | "sample" => .sample (patternsFlag args) (.ofArgs args)
    | "help" | "--help" | "-h" => .usage
    | "version" | "--version" => .version
    | _ => .unknown name

/-- The file that a command reads. -/
def file? : Command → Option String
  | .check path | .dump path | .sample path _ => path
  | .usage | .version | .builtin | .unknown _ => none

/-! ## Texts -/

/-- Lines, each of them ended. -/
def unlines (ls : List String) : String := String.join (ls.map (· ++ "\n"))

/-- How the program is used. -/
def usageText : String := unlines [
  "Tessel instruction selector",
  "",
  "Usage: tessel <command> [options]",
  "",
  "Commands:",
  "  check <file.isel>    Compile a pattern file and report errors",
  "  dump <file.isel>     Print every compiled pattern",
  "  builtin              Check the bundled x86 pattern set",
  "  sample               Select tiles for built-in sample blocks",
  "  help                 Show this help message",
  "  version              Show version information",
  "",
  "Sample options:",
  "  --patterns=<file>    Use a pattern file instead of the bundled set",
  "  --max-tiles=<n>      Tiles kept per node (default 64, `none` for all)",
  "  --no-dedup           Keep duplicate tiles",
  "",
  "Global options:",
  "  --verbose, -v        Log at debug level (RUST_LOG overrides)",
  "",
  "Examples:",
  "  tessel check patterns/x86.isel",
  "  tessel sample --max-tiles=4",
  "  RUST_LOG=tessel_isel=trace tessel sample"]

/-- The name and version of the program. -/
def versionText : String := unlines ["Tessel 0.1.0-alpha.1"]

/-- What tables contain: a line of totals, then the size of each group. -/
def summary (label : String) (t : Tables) : String :=
  let standalone := (t.patterns.filter fun p => p.candidateOp?.isSome).length
  unlines (
    ("OK: " ++ label ++ " (" ++ t.groupNames.length.repr ++ " groups, " ++ t.size.repr
        ++ " patterns, " ++ standalone.repr ++ " standalone)")
      :: t.groupNames.map fun g => "  " ++ g ++ ": " ++ (t.group g).length.repr)

/-- Every pattern on a line; a tilde marks those whose template cannot stand alone. -/
def listing (t : Tables) : String :=
  unlines (t.patterns.map fun p => (if p.isStandalone then "  " else "~ ") ++ p.text)

/-- The line of a node, followed by those of its tiles. -/
def nodeLines (id : NodeId) (n : Node) (tiles : List Tile) : List String :=
  ("  " ++ nodeText id ++ " " ++ n.op.name ++ ": " ++ tiles.length.repr ++ " tile(s)")
    :: tiles.map fun t => "    [" ++ t.source.text ++ "] " ++ "; ".intercalate t.asm

/-- A block, node by node with the tiles of each. -/
def blockListing (b : Block) (tiles : List (List Tile)) : String :=
  unlines (
    ("block " ++ b.place.moduleName ++ "::" ++ b.place.functionName ++ "::" ++ b.place.blockName)
      :: ((b.ids.zip (b.nodes.toList.zip tiles)).flatMap fun (id, n, ts) => nodeLines id n ts))

/-! ## Runs -/

/-- The text of a file, or why there is none. -/
def textOf (path : String) : FileContent → Except String String
  | .missing => .error ("cannot find file '" ++ path ++ "'")
  | .notText => .error ("'" ++ path ++ "' contains invalid UTF-8 data")
  | .denied => .error ("permission denied reading '" ++ path ++ "'")
  | .unreadable reason => .error ("error reading '" ++ path ++ "': " ++ reason)
  | .text content => .ok content

/-- The tables of a pattern file, or the outcome of not having them. -/
def load (files : String → FileContent) (path : String) : Except Outcome Tables :=
  match textOf path (files path) with
  | .error why => .error (.failure (why ++ "\n"))
  | .ok source => (Tables.ofSource source).mapError fun e => .failure (e.render path source)

/-- The tables of the bundled pattern file, or the outcome of not having them. -/
def bundled : Except Outcome Tables :=
  x86Tables.mapError fun e => .failure (e.render "<builtin>" x86Source)

/-- What a fault stops with. -/
def faultText : Fault → String
  | .missingNode id => "error: there is no node " ++ nodeText id ++ "\n"
  | .endlessInclusion group => "error: group `" ++ group ++ "` includes itself without end\n"

/-- Selects tiles for the sample blocks and lists them. -/
def sampleRun (settings : Settings) (t : Tables) : Outcome :=
  match Selector.selectFunction ⟨t, settings⟩ Samples.blocks with
  | .error fault => .failure (faultText fault)
  | .ok (.error e) => .failure ("error: " ++ e.message ++ "\n")
  | .ok (.ok tiles) => .success (String.join (List.zipWith blockListing Samples.blocks tiles))

/-- The outcome of what is done with tables, if there are any. -/
def onTables (use : Tables → Outcome) : Except Outcome Tables → Outcome
  | .ok t => use t
  | .error o => o

/-- Runs a command. -/
def run (files : String → FileContent) : Command → Outcome
  | .usage => .success usageText
  | .version => .success versionText
  | .check none => .failure "Usage: tessel check <file.isel>\n"
  | .check (some path) => onTables (fun t => .success (summary path t)) (load files path)
  | .dump none => .failure "Usage: tessel dump <file.isel>\n"
  | .dump (some path) => onTables (fun t => .success (listing t)) (load files path)
  | .builtin => onTables (fun t => .success (summary "builtin" t)) bundled
  | .sample none settings => onTables (sampleRun settings) bundled
  | .sample (some path) settings => onTables (sampleRun settings) (load files path)
  | .unknown name => ⟨usageText, "Unknown command: " ++ name ++ "\n\n", 1⟩

end Command

end TileSelect
