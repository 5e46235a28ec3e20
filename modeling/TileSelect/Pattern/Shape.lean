import TileSelect.Asm.Part
import TileSelect.Operation
import TileSelect.Text.Unsigned
/-!
Patterns: what they match and what they emit.

A pattern is one alternative of a group. Its tree, the shape, says which nodes it matches; its
template says what is emitted for them. An identifier is introduced where the tree captures
something or includes a group, and the same identifiers occur in the template. Some names mean
something fixed in templates and can therefore not be introduced: `out`, the two halves, and the
names of temporaries.
-/

set_option autoImplicit false

namespace TileSelect

/-! ## Shapes -/

/-- The tree of a pattern. -/
inductive Shape where
  /-- An operation node, with one shape for each operand. -/
  | node (ident : Option String) (ty : Option ValueType) (op : Operation) (args : List Shape)
  /-- Any node that yields a value; computing it is left to another tile. -/
  | producer (ident : Option String) (ty : Option ValueType)
  /-- A constant: any, or one with the given number. -/
  | constant (ident : Option String) (ty : Option ValueType) (value : Option Int64)
  /-- Whatever an alternative of the group matches. -/
  | inclusion (ident : String) (group : String)
  /-- The very node that an identifier matched before. -/
  | backreference (ident : String)

namespace Shape

/-- The identifier that the top of a shape introduces. -/
def ident? : Shape → Option String
  | .node ident _ _ _ | .producer ident _ | .constant ident _ _ => ident
  | .inclusion ident _ => some ident
  | .backreference _ => none

/-- The width that the top of a shape asks for. -/
def requiredType? : Shape → Option ValueType
  | .node _ ty _ _ | .producer _ ty | .constant _ ty _ => ty
  | .inclusion .. | .backreference .. => none

mutual

/-- The shape and all shapes inside it, each before those inside it. -/
def subshapes : Shape → List Shape
  | .node ident ty op args => .node ident ty op args :: subshapesList args
  | s => [s]

/-- The shapes in several shapes. -/
def subshapesList : List Shape → List Shape
  | [] => []
  | s :: ss => subshapes s ++ subshapesList ss

end

/-- The identifiers that a shape introduces, as they come. -/
def idents (s : Shape) : List String := s.subshapes.filterMap ident?

/-- The operation at the top, if there is one. -/
def rootOp? : Shape → Option Operation
  | .node _ _ op _ => some op
  | _ => none

/-- The operation of the stored value, for a store whose value is itself an operation. -/
def storedOp? : Shape → Option Operation
  | .node _ _ .store (_ :: value :: _) => value.rootOp?
  | _ => none

end Shape

/-! ## Patterns -/

/-- Names a pattern: its group and its position among the group's alternatives. -/
structure PatternId where
  group : String
  ordinal : Nat
deriving DecidableEq

/-- `group#ordinal` -/
def PatternId.text (id : PatternId) : String := id.group ++ "#" ++ id.ordinal.repr

/-- A shape and the template that is emitted for it. -/
structure Pattern where
  id : PatternId
  root : Shape
  template : List Part

namespace Pattern

/-- The part of the tree that introduces an identifier: the first to do so. -/
def lookup? (p : Pattern) (ident : String) : Option Shape :=
  p.root.subshapes.find? fun s => s.ident? == some ident

/-- Whether the template can stand alone as a tile. -/
def isStandalone (p : Pattern) : Bool := p.template.all Part.isStandalone

end Pattern

/-! ## Names with a fixed meaning -/

/-- What the name of a temporary says about it: its width, or nothing. -/
structure TempName where
  width : Option ValueType
deriving DecidableEq

/-- The value a temporary's width digits stand for: a width of at least eight bits. -/
def TempName.width? (digits : List Char) : Option ValueType :=
  match unsignedBelow? UInt32.size digits with
  | some bits => if 8 ≤ bits then ValueType.ofBits? bits else none
  | none => none

/-- Reads the name of a temporary: `tmp`, then an optional width, then optionally an underscore
and a key that is not empty. -/
def TempName.parse? (name : String) : Option TempName :=
  match name.toList with
  | 't' :: 'm' :: 'p' :: rest =>
    if rest.dropWhile (· ≠ '_') = ['_'] then none
    else
      match rest.takeWhile (· ≠ '_') with
      | [] => some ⟨none⟩
      | digits => (width? digits).map fun ty => ⟨some ty⟩
  | _ => none

/-- Whether a name has a fixed meaning in templates. -/
def isReserved (name : String) : Bool :=
  name == "out" || name == "lo" || name == "hi" || (TempName.parse? name).isSome

end TileSelect
