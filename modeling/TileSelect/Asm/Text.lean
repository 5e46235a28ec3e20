import TileSelect.Asm.Part
/-!
The written form of a part.

Instructions read `MNEMONIC a, b`, labels `@name`, addresses `[base + index*scale + offset]`,
references `<path.half:TYPE>`, values `%n`, temporaries `tn`; a half is a suffix `.lo` or `.hi`.
The width of a concrete operand is not written, so the form is for reading and not a code: two
parts that differ in width only have the same text.
-/

set_option autoImplicit false

namespace TileSelect

namespace Half

/-- The suffix of an operand that may be halved. -/
def textOf (half : Option Half) : String :=
  match half with
  | some h => "." ++ h.suffix
  | none => ""

end Half

namespace Part

/-- A reference between its angle brackets. -/
def referenceText (path : List String) (half : Option Half) (ty : Option ValueType) : String :=
  "<" ++ ".".intercalate path ++ Half.textOf half
    ++ (match ty with | some t => ":" ++ t.name | none => "") ++ ">"

/-- An address, given the texts of its base and index and its offset with that offset's text.
A negative number after another component is written as a subtraction. -/
def addressText (base index : Option String) (scale : Nat) (offset : Option (Part × String)) :
    String :=
  let indexed := index.map fun t => if scale = 1 then t else t ++ "*" ++ scale.repr
  let leading := base.toList ++ indexed.toList
  let trailing :=
    match offset with
    | none => ""
    | some (o, t) =>
      if leading.isEmpty then t
      else
        match o with
        | .imm v _ => if v < 0 then " - " ++ v.toInt.natAbs.repr else " + " ++ t
        | _ => " + " ++ t
  "[" ++ " + ".intercalate leading ++ trailing ++ "]"

mutual

/-- The written form of a part. -/
def text : Part → String
  | .instruction mnemonic condition operands =>
    let operandTexts := textList operands
    mnemonic ++ (match condition with | some c => c.suffix | none => "")
      ++ (if operandTexts.isEmpty then "" else " " ++ ", ".intercalate operandTexts)
  | .label name => "@" ++ name
  | .memory ⟨base, index, scale, offset⟩ =>
    addressText (textOption base) (textOption index) scale (textWith offset)
  | .reference path half ty => referenceText path half ty
  | .register r => r.name
  | .value id _ half => "%" ++ id.repr ++ Half.textOf half
  | .temp id _ half => "t" ++ id.repr ++ Half.textOf half
  | .imm v _ => v.toInt.repr
  | .symbol name => name

/-- The written forms of several parts. -/
def textList : List Part → List String
  | [] => []
  | p :: ps => text p :: textList ps

/-- The written form of an optional part. -/
def textOption : Option Part → Option String
  | none => none
  | some p => some (text p)

/-- An optional part beside its written form. -/
def textWith : Option Part → Option (Part × String)
  | none => none
  | some p => some (p, text p)

end

/-- The written forms of several parts are found one by one. -/
theorem textList_eq_map (ps : List Part) : textList ps = ps.map text := by
  induction ps with
  | nil => rfl
  | cons p ps ih => simp [textList, ih]

end Part

end TileSelect
