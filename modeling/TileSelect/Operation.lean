/-!
The operations of a block's nodes.

Three questions about an operation decide everything later stages do with it: does it yield a
value, how many operands may a pattern ask for, and may those operands be exchanged. They are
answered here once, by plain case analysis, so that a proof about one operation never has to
look at a table of forty.
-/

set_option autoImplicit false

namespace TileSelect

/-- What a node computes or does. The last six yield no value. -/
inductive Operation where
  | arg | constant | slot
  | load
  | add | sub | mul | sdiv | udiv | srem | urem
  | and | or | xor | shl | shr | sar
  | neg | not | zext | sext | trunc
  | eq | ne | slt | sle | sgt | sge | ult | ule | ugt | uge
  | select | call
  | store | callVoid | jump | branch | ret | entry
deriving DecidableEq

namespace Operation

/-- Every operation, in the order in which the type lists them. -/
def all : List Operation :=
  [ .arg, .constant, .slot, .load,
    .add, .sub, .mul, .sdiv, .udiv, .srem, .urem,
    .and, .or, .xor, .shl, .shr, .sar,
    .neg, .not, .zext, .sext, .trunc,
    .eq, .ne, .slt, .sle, .sgt, .sge, .ult, .ule, .ugt, .uge,
    .select, .call,
    .store, .callVoid, .jump, .branch, .ret, .entry ]

/-- The upper-case name used in pattern files and in output. -/
def name : Operation → String
  | .arg => "ARG"
  | .constant => "CONSTANT"
  | .slot => "SLOT"
  | .load => "LOAD"
  | .add => "ADD"
  | .sub => "SUB"
  | .mul => "MUL"
  | .sdiv => "SDIV"
  | .udiv => "UDIV"
  | .srem => "SREM"
  | .urem => "UREM"
  | .and => "AND"
  | .or => "OR"
  | .xor => "XOR"
  | .shl => "SHL"
  | .shr => "SHR"
  | .sar => "SAR"
  | .neg => "NEG"
  | .not => "NOT"
  | .zext => "ZEXT"
  | .sext => "SEXT"
  | .trunc => "TRUNC"
  | .eq => "EQ"
  | .ne => "NE"
  | .slt => "SLT"
  | .sle => "SLE"
  | .sgt => "SGT"
  | .sge => "SGE"
  | .ult => "ULT"
  | .ule => "ULE"
  | .ugt => "UGT"
  | .uge => "UGE"
  | .select => "SELECT"
  | .call => "CALL"
  | .store => "STORE"
  | .callVoid => "CALLV"
  | .jump => "JUMP"
  | .branch => "BRANCH"
  | .ret => "RETURN"
  | .entry => "ENTRY"

/-- The operation with this name. -/
def ofName? (s : String) : Option Operation := all.find? (·.name == s)

/-- Whether a node with this operation is meant to yield a value. -/
def isProducer : Operation → Bool
  | .store | .callVoid | .jump | .branch | .ret | .entry => false
  | _ => true

/-- The number of operands a pattern matches against; `none` for the operations whose operand
count varies, which no pattern may name. -/
def arity : Operation → Option Nat
  | .select | .call | .callVoid | .ret => none
  | .arg | .constant | .slot | .jump | .entry => some 0
  | .load | .neg | .not | .zext | .sext | .trunc | .branch => some 1
  | _ => some 2

/-- Whether the two operands may be exchanged. -/
def isCommutative : Operation → Bool
  | .add | .mul | .and | .or | .xor | .eq | .ne => true
  | _ => false

/-- Whether the operation compares its operands and yields a truth value. -/
def isComparison : Operation → Bool
  | .eq | .ne | .slt | .sle | .sgt | .sge | .ult | .ule | .ugt | .uge => true
  | _ => false

/-- An operation is found under its own name, so no two of them share one. -/
theorem ofName?_name (op : Operation) : ofName? op.name = some op := by
  cases op <;> decide

end Operation

end TileSelect
