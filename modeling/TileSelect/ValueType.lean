/-!
Integer widths of the values a block computes.

Selection only distinguishes widths: whether a number is signed is a property of the
operation that reads it. The one structural fact the rest of the library leans on is that a
width of at least sixteen bits splits into two equal halves, each of which is again a width;
everything a 64-bit value goes through on a 32-bit target is built from that.
-/

set_option autoImplicit false

namespace TileSelect

/-- The width of a produced value. -/
inductive ValueType where
  | i1
  | i8
  | i16
  | i32
  | i64
deriving DecidableEq

namespace ValueType

/-- Every width, narrowest first. -/
def all : List ValueType := [.i1, .i8, .i16, .i32, .i64]

/-- The width of an address on the target. -/
def pointer : ValueType := .i32

/-- The number of bits. -/
def bits : ValueType → Nat
  | .i1 => 1
  | .i8 => 8
  | .i16 => 16
  | .i32 => 32
  | .i64 => 64

/-- The upper-case name used in pattern files and in output. -/
def name : ValueType → String
  | .i1 => "I1"
  | .i8 => "I8"
  | .i16 => "I16"
  | .i32 => "I32"
  | .i64 => "I64"

/-- The width of one half; `none` for the widths that do not split. -/
def half : ValueType → Option ValueType
  | .i16 => some .i8
  | .i32 => some .i16
  | .i64 => some .i32
  | .i1 | .i8 => none

/-- The width with this many bits. -/
def ofBits? (n : Nat) : Option ValueType := all.find? (·.bits == n)

/-- The width with this name. -/
def ofName? (s : String) : Option ValueType := all.find? (·.name == s)

/-- The largest number with this many bits, which as a 64-bit word selects the low `bits`. -/
def mask (ty : ValueType) : UInt64 := UInt64.ofNat (Nat.pow 2 ty.bits - 1)

/-- **A half is half as wide.** -/
theorem bits_of_half {ty narrow : ValueType} (h : ty.half = some narrow) :
    ty.bits = 2 * narrow.bits := by
  cases ty <;> cases h <;> rfl

/-- A width is found under its own name, so no two of them share one. -/
theorem ofName?_name (ty : ValueType) : ofName? ty.name = some ty := by
  cases ty <;> decide

/-- A width is also found by its number of bits. -/
theorem ofBits?_bits (ty : ValueType) : ofBits? ty.bits = some ty := by
  cases ty <;> decide

end ValueType

end TileSelect
