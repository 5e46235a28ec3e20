import TileSelect.Index
import TileSelect.Pattern.Definition
import TileSelect.Source.Parser
/-!
Patterns, sorted for use.

Two questions are asked of a set of patterns: which alternatives does a group have, and which
patterns are worth trying at a node. Three indexes answer them. A pattern is a candidate for a
node only if its tree has an operation at the top and its template can stand alone; a store of
an operation is kept apart, under the stored operation, so that a store node only looks at the
stores of its own kind of value. Every pattern stays reachable through its group.
-/

set_option autoImplicit false

namespace TileSelect

/-- The operation that a pattern is a candidate for, if it is one. -/
def Pattern.candidateOp? (p : Pattern) : Option Operation :=
  if p.isStandalone then p.root.rootOp? else none

/-- The key of a candidate among those found by the operation of the node. -/
def Pattern.rootKey? (p : Pattern) : Option Operation :=
  match p.root.storedOp? with
  | some _ => none
  | none => p.candidateOp?

/-- The key of a candidate among the stores found by the operation of the stored value. -/
def Pattern.storeKey? (p : Pattern) : Option Operation :=
  if p.isStandalone then p.root.storedOp? else none

/-- A set of patterns with its indexes. -/
structure Tables where
  groups : Index String Pattern
  byRoot : Index Operation Pattern
  storeByValue : Index Operation Pattern

namespace Tables

/-- Sorts patterns into the indexes. -/
def ofPatterns (ps : List Pattern) : Tables where
  groups := .ofList (fun p => some p.id.group) ps
  byRoot := .ofList Pattern.rootKey? ps
  storeByValue := .ofList Pattern.storeKey? ps

/-- The alternatives of a group, in order; none if there is no such group. -/
def group (t : Tables) (name : String) : List Pattern := t.groups.get name

/-- The names of the groups, in the order of their first alternatives. -/
def groupNames (t : Tables) : List String := t.groups.keys

/-- Every pattern, group by group. -/
def patterns (t : Tables) : List Pattern := t.groups.items

/-- The number of patterns. -/
def size (t : Tables) : Nat := t.patterns.length

/-- The patterns worth trying at a node with the operation `op`, which for a store comes with
the operation of the stored value. -/
def candidates (t : Tables) (op : Operation) (stored : Option Operation) : List Pattern :=
  t.byRoot.get op ++
    match op, stored with
    | .store, some value => t.storeByValue.get value
    | _, _ => []

end Tables

/-- Why a pattern file makes no tables: its form is wrong, or a pattern is. -/
inductive CompileError where
  | form (errors : List SyntaxError)
  | definition (error : DefinitionError)

/-- The message of an error, in one line. -/
def CompileError.message : CompileError → String
  | .form errors =>
    "pattern definitions contain " ++ errors.length.repr ++ " syntax error(s)"
  | .definition e => e.message

/-- The tables of a pattern file. -/
def Tables.ofSource (source : String) : Except CompileError Tables :=
  match Document.parse source.toList with
  | .error errors => .error (.form errors)
  | .ok document =>
    match document.patterns with
    | .error e => .error (.definition e)
    | .ok ps => .ok (.ofPatterns ps)

end TileSelect
