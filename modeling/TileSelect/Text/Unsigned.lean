import TileSelect.Source.Lexeme
/-!
Unsigned numbers as settings and names spell them.

An optional plus sign, then one or more decimal digits, leading zeros allowed, and nothing else;
the number has to stay below a limit. This is more generous than the numbers of a pattern file,
which carry no sign.
-/

set_option autoImplicit false

namespace TileSelect

/-- The number below `limit` that a text spells. -/
def unsignedBelow? (limit : Nat) (text : List Char) : Option Nat :=
  let digits :=
    match text with
    | '+' :: rest => rest
    | _ => text
  if !digits.isEmpty && digits.all isDecimal && decide (digitsValue 10 digits < limit) then
    some (digitsValue 10 digits)
  else none

end TileSelect
