import TileSelect.Asm.Text
import TileSelect.Pattern.Shape
/-!
The written form of shapes and patterns.

A shape is written as the expression it would be in a pattern file, with one space between the
words; a pattern is written as its name, its tree and its template.
-/

set_option autoImplicit false

namespace TileSelect

namespace Shape

/-- `<ident> `, or nothing. -/
def captureText (ident : Option String) : String :=
  match ident with
  | some i => "<" ++ i ++ "> "
  | none => ""

/-- `TYPE `, or nothing. -/
def typeText (ty : Option ValueType) : String :=
  match ty with
  | some t => t.name ++ " "
  | none => ""

mutual

/-- The expression that a shape is written as. -/
def text : Shape → String
  | .node ident ty op args =>
    "(" ++ captureText ident ++ typeText ty ++ op.name ++ argsText args ++ ")"
  | .producer ident ty => "(" ++ captureText ident ++ typeText ty ++ "LOCAL)"
  | .constant ident ty value =>
    "(" ++ captureText ident ++ typeText ty ++ "CONSTANT"
      ++ (match value with | some v => " " ++ v.toInt.repr | none => "") ++ ")"
  | .inclusion ident group => if ident = group then group else "<" ++ ident ++ "> " ++ group
  | .backreference ident => ident

/-- The arguments of an operation, each after a space. -/
def argsText : List Shape → String
  | [] => ""
  | s :: ss => " " ++ text s ++ argsText ss

end

end Shape

/-- `group#ordinal: tree -> [part] [part]` -/
def Pattern.text (p : Pattern) : String :=
  p.id.text ++ ": " ++ p.root.text ++ " ->"
    ++ String.join (p.template.map fun part => " [" ++ part.text ++ "]")

end TileSelect
