import TileSelect.Operation
import TileSelect.Source.Span
/-!
What can be wrong with a pattern whose form is right, and how it is said.
-/

set_option autoImplicit false

namespace TileSelect

/-- The two shapes that look like operations and are none. -/
inductive SpecialShape where
  | producer
  | constant
deriving DecidableEq

/-- How pattern files spell a special shape. -/
def SpecialShape.name : SpecialShape → String
  | .producer => "LOCAL"
  | .constant => "CONSTANT"

/-- What a special shape takes. -/
def SpecialShape.takes : SpecialShape → String
  | .producer => "no arguments"
  | .constant => "at most one numeric argument"

/-- Why the terms of a memory operand do not make an address. -/
inductive AddressFault where
  | nestedMemory
  | label
  | secondIndex
  | secondDisplacement
  | thirdRegister
deriving DecidableEq

/-- How a message names the fault. -/
def AddressFault.text : AddressFault → String
  | .nestedMemory => "nested memory operand"
  | .label => "label inside memory operand"
  | .secondIndex => "more than one index"
  | .secondDisplacement => "more than one displacement"
  | .thirdRegister => "more than two registers"

/-- Why a pattern is refused. -/
inductive DefinitionFault where
  | unresolvedBackreference (ident : String)
  | unknownOperation (name : String)
  | arityMismatch (op : Operation) (expected found : Nat)
  | notMatchable (op : Operation)
  | duplicateIdentifier (ident : String)
  | reservedIdentifier (ident : String)
  | unknownIdentifier (ident : String)
  | unknownType (name : String)
  | unknownGroup (ident name : String)
  | unknownCondition (name : String)
  | invalidScale (scale : Int64)
  | tooManyOperands (mnemonic : String) (found : Nat)
  | invalidAddress (fault : AddressFault)
  | unexpectedLiteral
  | malformedSpecial (shape : SpecialShape)
deriving DecidableEq

/-- The message of a fault, without its place. -/
def DefinitionFault.message : DefinitionFault → String
  | .unresolvedBackreference ident =>
    "backreference `" ++ ident
      ++ "` does not name an identifier introduced earlier in the pattern"
  | .unknownOperation name => "unknown operation `" ++ name ++ "`"
  | .arityMismatch op expected found =>
    "`" ++ op.name ++ "` takes " ++ expected.repr ++ " argument(s), pattern gives " ++ found.repr
  | .notMatchable op => "`" ++ op.name ++ "` has no fixed shape and cannot appear in a pattern"
  | .duplicateIdentifier ident => "identifier `" ++ ident ++ "` is introduced more than once"
  | .reservedIdentifier ident => "`" ++ ident ++ "` is reserved and cannot be captured"
  | .unknownIdentifier ident => "template refers to unknown identifier `" ++ ident ++ "`"
  | .unknownType name => "unknown type `" ++ name ++ "`"
  | .unknownGroup ident name =>
    "`<" ++ ident ++ "> " ++ name ++ "` includes an unknown group `" ++ name ++ "`"
  | .unknownCondition name => "unknown condition code `" ++ name ++ "`"
  | .invalidScale scale => "invalid scale " ++ scale.toInt.repr ++ "; expected 1, 2, 4 or 8"
  | .tooManyOperands mnemonic found =>
    "`" ++ mnemonic ++ "` has " ++ found.repr ++ " operands; at most 2 are allowed"
  | .invalidAddress fault => "invalid memory operand: " ++ fault.text
  | .unexpectedLiteral => "numeric literal is only allowed as the argument of CONSTANT"
  | .malformedSpecial shape => "`" ++ shape.name ++ "` takes " ++ shape.takes

/-- A fault and the pattern and place where it was found. -/
structure DefinitionError where
  group : String
  ordinal : Nat
  span : Span
  fault : DefinitionFault
deriving DecidableEq

/-- The message of an error, with the alternative it is in. -/
def DefinitionError.message (e : DefinitionError) : String :=
  "in `" ++ e.group ++ "` alternative " ++ e.ordinal.repr ++ ": " ++ e.fault.message

end TileSelect
