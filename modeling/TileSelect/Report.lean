import TileSelect.Tables
import TileSelect.Text.Lines
/-!
Errors of a pattern file, written for a reader.

Each error is one entry: its message, its place, and the line it is on with a row of carets
under the characters meant. An entry for a place that is on no line of the text has no such
excerpt. A file whose form is wrong may have many entries and ends with their number.
-/

set_option autoImplicit false

namespace TileSelect

namespace Report

/-- A row of one character. -/
def row (n : Nat) (c : Char) : String := String.ofList (List.replicate n c)

/-- How many carets mark a span: one for each character on its first line, and at least one. -/
def caretCount (source : List Char) (span : Span) : Nat :=
  match charsIn? source span with
  | some text => max 1 ((lines text).headD []).length
  | none => 1

/-- The line that a span starts on, with carets under the span; empty if there is no such line. -/
def excerpt (source : List Char) (span : Span) : String :=
  let position := positionOf source span.start
  match (lines source)[position.line - 1]? with
  -- After a final line feed there is a position, but no line.
  | none => ""
  | some text =>
    let number := position.line.repr
    let margin := row number.length ' '
    margin ++ " |\n"
      ++ number ++ " | " ++ String.ofList text ++ "\n"
      ++ margin ++ " | " ++ row (position.column - 1) ' ' ++ row (caretCount source span) '^'
      ++ "\n"

/-- An error with its place and excerpt. -/
def entry (path : String) (source : List Char) (span : Span) (message : String) : String :=
  let position := positionOf source span.start
  "error: " ++ message ++ "\n  --> " ++ path ++ ":" ++ position.line.repr ++ ":"
    ++ position.column.repr ++ "\n" ++ excerpt source span

end Report

/-- Every error of a file, each with its place and its line. -/
def CompileError.render (path source : String) (e : CompileError) : String :=
  match e with
  | .form errors =>
    String.join (errors.map fun s => Report.entry path source.toList s.span s.fault.message)
      ++ e.message ++ "\n"
  | .definition d => Report.entry path source.toList d.span d.message

end TileSelect
