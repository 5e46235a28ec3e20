import TileSelect.Asm.Part
/-!
Halves of operands.

A value or a temporary of a width that splits is halved by recording which half is meant and
narrowing its width; it can be halved once. A number of a known width is halved by computing:
its low or high bits, read as a signed number of the narrower width. Nothing else has halves:
registers and linker symbols name whole words, and a number of no width has no middle.
-/

set_option autoImplicit false

namespace TileSelect

namespace Half

/-- Where a half that is `bits` wide starts, counting bits from the low end. -/
def start (half : Half) (bits : Nat) : Nat :=
  match half with
  | .low => 0
  | .high => bits

/-- One half of a number: the bits of that half, read as a signed number of width `narrow`. -/
def ofNumber (half : Half) (narrow : ValueType) (v : Int64) : Int64 :=
  Int64.ofInt (v.toBitVec.extractLsb' (half.start narrow.bits) narrow.bits).toInt

end Half

namespace Part

/-- One half of an operand; `none` if it has none. -/
def slice? (half : Half) : Part → Option Part
  | .value id ty none => ty.half.map fun narrow => .value id narrow (some half)
  | .temp id ty none => ty.half.map fun narrow => .temp id narrow (some half)
  | .imm v (some ty) => ty.half.map fun narrow => .imm (half.ofNumber narrow v) (some narrow)
  | _ => none

end Part

end TileSelect
