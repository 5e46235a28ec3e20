import TileSelect.Tile
/-!
Why a template makes no sense for a combination of alternatives, and how it is said.
-/

set_option autoImplicit false

namespace TileSelect

/-- Why the components of an address do not fit together. -/
inductive ComponentFault where
  | notAddress
  | notBase
  | scaledTwice
  | notIndex
  | notConstant
  | twoDisplacements
  | empty
deriving DecidableEq

/-- How a message names the fault. -/
def ComponentFault.text : ComponentFault → String
  | .notAddress => "not an address component"
  | .notBase => "not a base register"
  | .scaledTwice => "scaled index is scaled again"
  | .notIndex => "not an index register"
  | .notConstant => "displacement is not a constant"
  | .twoDisplacements => "cannot combine with another displacement"
  | .empty => "empty memory operand"

/-- Why substitution fails. -/
inductive SubstFault where
  | unbound (ident : String)
  | unknownIdentifier (ident group : String)
  | notASubpattern (ident member : String)
  | noInstantiation (ident : String)
  | multiPartOperand (ident : String) (parts : Nat)
  | noValue (node : NodeId)
  | cannotSplit (part : Part)
  | nestedTemporary
  | invalidAddress (part : Part) (fault : ComponentFault)
deriving DecidableEq

/-- The message of a fault. -/
def SubstFault.message : SubstFault → String
  | .unbound ident => "`" ++ ident ++ "` is not bound in the match"
  | .unknownIdentifier ident group =>
    "`" ++ ident ++ "` names no identifier of pattern `" ++ group ++ "`"
  | .notASubpattern ident member =>
    "`" ++ ident ++ "` is not a subpattern, so `." ++ member ++ "` cannot be selected"
  | .noInstantiation ident => "`" ++ ident ++ "` has no chosen instantiation"
  | .multiPartOperand ident parts =>
    "output of `" ++ ident ++ "` has " ++ parts.repr
      ++ " parts; only single-part outputs are operands"
  | .noValue node => "node " ++ nodeText node ++ " yields no typed value"
  | .cannotSplit part => "cannot take a half of `" ++ part.text ++ "`"
  | .nestedTemporary => "temporaries are only visible in their own template"
  | .invalidAddress part fault =>
    "invalid memory operand `" ++ part.text ++ "`: " ++ fault.text

end TileSelect
