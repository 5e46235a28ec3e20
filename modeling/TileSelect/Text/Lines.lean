import TileSelect.Source.Span
/-!
Lines and columns of a text.

Positions are given in bytes and may be wrong: past the end, before their own start, or inside
a character. A cut at such a position does not exist, which `cutAt` says by `none`; nothing
here ever fails otherwise. A line ends at a line feed, and a carriage return right before it
belongs to the ending; an empty last line does not count.
-/

set_option autoImplicit false

namespace TileSelect

/-- Cuts a text at a byte position, if a character starts or the text ends there. -/
def cutAt : Nat → List Char → Option (List Char × List Char)
  | 0, cs => some ([], cs)
  | _ + 1, [] => none
  | n + 1, c :: cs =>
    if c.utf8Size ≤ n + 1 then
      (cutAt (n + 1 - c.utf8Size) cs).map fun (before, after) => (c :: before, after)
    else none

/-- The characters of a span, if it is a range of whole characters of the text. -/
def charsIn? (source : List Char) (span : Span) : Option (List Char) :=
  if span.start ≤ span.stop then
    match cutAt span.start source with
    | some (_, rest) => (cutAt (span.stop - span.start) rest).map Prod.fst
    | none => none
  else none

/-- The lines of a text of which the reversed `current` was read already. -/
def linesAfter (current : List Char) : List Char → List (List Char)
  | [] => if current.isEmpty then [] else [current.reverse]
  | c :: cs =>
    if c = '\n' then
      -- `current` is reversed, so the character before the line feed comes first.
      let line :=
        match current with
        | '\r' :: line => line
        | line => line
      line.reverse :: linesAfter [] cs
    else linesAfter (c :: current) cs

/-- The lines of a text. -/
def lines (source : List Char) : List (List Char) := linesAfter [] source

/-- A line and a column, both counted from one; columns count characters. -/
structure Position where
  line : Nat
  column : Nat
deriving DecidableEq

/-- The text before a byte position; a position past the end stands for the end, and one inside
a character for the whole text. -/
def textBefore (source : List Char) (offset : Nat) : List Char :=
  match cutAt (min offset (byteLength source)) source with
  | some (before, _) => before
  | none => source

/-- The line and column of a byte position. -/
def positionOf (source : List Char) (offset : Nat) : Position :=
  let before := textBefore source offset
  ⟨before.count '\n' + 1, (before.reverse.takeWhile (· ≠ '\n')).length + 1⟩

end TileSelect
