import TileSelect.Source.Span
/-!
Tokens of a pattern file.
-/

set_option autoImplicit false

namespace TileSelect

/-- A token: a punctuation mark, a number or an identifier. -/
inductive Token where
  | leftParen | rightParen
  | leftBracket | rightBracket
  | less | greater
  | colon | semicolon | pipe | arrow | comma | dot
  | plus | minus | star | atSign
  | number (value : Int64)
  | identifier (name : String)
deriving DecidableEq

namespace Token

/-- The spelling of a punctuation mark; empty for numbers and identifiers, which have many. -/
def mark : Token → String
  | .leftParen => "("
  | .rightParen => ")"
  | .leftBracket => "["
  | .rightBracket => "]"
  | .less => "<"
  | .greater => ">"
  | .colon => ":"
  | .semicolon => ";"
  | .pipe => "|"
  | .arrow => "->"
  | .comma => ","
  | .dot => "."
  | .plus => "+"
  | .minus => "-"
  | .star => "*"
  | .atSign => "@"
  | .number _ | .identifier _ => ""

/-- How a message names the token. -/
def describe : Token → String
  | .identifier name => "identifier `" ++ name ++ "`"
  | .number v => "number `" ++ v.toInt.repr ++ "`"
  | t => "`" ++ t.mark ++ "`"

end Token

/-- A token and where it stands. -/
structure Located where
  token : Token
  span : Span
deriving DecidableEq

end TileSelect
