import TileSelect.Source.Token
/-!
What can be wrong with the form of a pattern file, and how it is said.

The causes are a character that starts no token, a number that does not fit, and a place where
something else was expected. What was expected is one of finitely many things, so it is a type
and not a text.
-/

set_option autoImplicit false

namespace TileSelect

/-- What the grammar wanted at some place. -/
inductive Expectation where
  | groupName
  | colonAfterGroupName
  | barOrSemicolon
  | arrow
  | templateItem
  | captureName
  | captureEnd
  | operationName
  | closingParen
  | groupOrIdentifier
  | expression
  | number
  | openingBracket
  | labelName
  | closingBracket
  | conditionCode
  | commaOrBracket
  | scale
  | identifier
  | memberIdentifier
  | typeName
  | referenceEnd
  | offset
  | termOrBracket
  | operand
deriving DecidableEq

/-- How a message names what was expected. -/
def Expectation.text : Expectation → String
  | .groupName => "group name"
  | .colonAfterGroupName => "`:` after group name"
  | .barOrSemicolon => "`|` or `;`"
  | .arrow => "`->`"
  | .templateItem => "template item `[`"
  | .captureName => "capture name"
  | .captureEnd => "`>` closing the capture"
  | .operationName => "operation name"
  | .closingParen => "`)`"
  | .groupOrIdentifier => "group or identifier name"
  | .expression => "pattern expression"
  | .number => "number"
  | .openingBracket => "`[`"
  | .labelName => "label name"
  | .closingBracket => "`]`"
  | .conditionCode => "condition code"
  | .commaOrBracket => "`,` or `]`"
  | .scale => "scale"
  | .identifier => "identifier"
  | .memberIdentifier => "identifier after `.`"
  | .typeName => "type"
  | .referenceEnd => "`>` closing the reference"
  | .offset => "offset"
  | .termOrBracket => "`+`, `-` or `]`"
  | .operand => "operand"

/-- Why the form of a file is refused. -/
inductive SyntaxFault where
  | invalidCharacter (text : String)
  | invalidNumber (text : String)
  | unexpectedToken (expected : Expectation) (found : Token)
  | unexpectedEnd (expected : Expectation)
deriving DecidableEq

/-- The message of a fault, without its place. -/
def SyntaxFault.message : SyntaxFault → String
  | .invalidCharacter text => "invalid character `" ++ text ++ "`"
  | .invalidNumber text => "invalid number `" ++ text ++ "`"
  | .unexpectedToken expected found =>
    "expected " ++ expected.text ++ ", found " ++ found.describe
  | .unexpectedEnd expected => "expected " ++ expected.text ++ ", found end of input"

/-- A fault and where it was found. -/
structure SyntaxError where
  fault : SyntaxFault
  span : Span
deriving DecidableEq

/-- The message of an error, with its place in bytes. -/
def SyntaxError.message (e : SyntaxError) : String :=
  e.fault.message ++ " at " ++ e.span.start.repr ++ ".." ++ e.span.stop.repr

end TileSelect
