import TileSelect.Asm.Halves
import TileSelect.Block.Basic
import TileSelect.Tile
/-!
Fixed lowerings.

Arguments, constants, stack slots, selects, calls and control flow have one obvious lowering each
and need no patterns. A select whose condition is compared in the same block has a second, wider
one that takes in the comparison.

Calls push their arguments from the last to the first, one word each and two for a 64-bit value,
high word first, so that in memory the words stand in the order of the arguments and low before
high. The caller removes them again. Results come back in `eax`, 64-bit results in `edx:eax`. A
function finds its argument words from `[ebp + 8]` on: below them are the return address and the
saved `ebp`.

A lowering may lack what it needs, an immediate or a value of known width; the node then has no
fixed lowering. Looking up an operand that does not exist is a fault.
-/

set_option autoImplicit false

namespace TileSelect

/-- The condition under which a comparison holds. -/
def Operation.condition? : Operation → Option Condition
  | .eq => some .equal
  | .ne => some .notEqual
  | .slt => some .less
  | .sle => some .lessEqual
  | .sgt => some .greater
  | .sge => some .greaterEqual
  | .ult => some .below
  | .ule => some .belowEqual
  | .ugt => some .above
  | .uge => some .aboveEqual
  | _ => none

namespace Lowering

/-- A result, nothing, or a fault. -/
abbrev Attempted (α : Type) := OptionT (Except Fault) α

/-- The value of a node as an operand. -/
def operand (b : Block) (id : NodeId) : Attempted Part := OptionT.mk do
  let _ ← b.node id
  return b.valueOf? id

/-- What may be missing, and then is. -/
def given {α : Type} (o : Option α) : Attempted α := OptionT.mk (.ok o)

/-- A tile of a fixed lowering; a covered node is no input. -/
def tile (root : NodeId) (kind : IntrinsicKind) (covered inputs : List NodeId)
    (parts : List Part) : Tile :=
  let covered := NodeSet.ofList covered
  ⟨root, covered, (NodeSet.ofList inputs).diff covered, parts, .intrinsic kind⟩

/-- The word of the frame at an offset from its base. -/
def frame (offset : Int64) : Part :=
  .memory ⟨some (.register .ebp), none, 1, some (.literal offset)⟩

/-- Whether an operand is a 64-bit value. -/
def isWide : Part → Bool
  | .value _ .i64 _ => true
  | _ => false

/-- Moves one operand into another. -/
def mov (dst src : Part) : Part := .plain "MOV" [dst, src]

/-- Moves two words into the halves of a 64-bit value. -/
def movIntoHalves (dst low high : Part) : Option (List Part) := do
  return [mov (← dst.slice? .low) low, mov (← dst.slice? .high) high]

/-! ## Leaves -/

/-- A function argument is read from the frame. -/
def arg (b : Block) (id : NodeId) (n : Node) : Option (List Tile) :=
  match n.imm with
  | some (.arg index) => do
    let out ← b.valueOf? id
    let offset := Int64.ofNat (8 + 4 * index)
    let parts ←
      if isWide out then movIntoHalves out (frame offset) (frame (offset + 4))
      else some [mov out (frame offset)]
    return [tile id .arg [id] [] parts]
  | _ => none

/-- The operand that a constant is written as. -/
def constantOperand? (b : Block) (id : NodeId) (n : Node) : Option Part :=
  match n.imm with
  | some (.int v) => some (.imm v (b.typeOf? id))
  | some (.symbol name) => some (.symbol name)
  | _ => none

/-- A constant is moved into its value, half by half if it is wide. -/
def constant (b : Block) (id : NodeId) (n : Node) : Option (List Tile) := do
  let out ← b.valueOf? id
  let src ← constantOperand? b id n
  let parts ←
    if isWide out then do movIntoHalves out (← src.slice? .low) (← src.slice? .high)
    else some [mov out src]
  return [tile id .constant [id] [] parts]

/-- The address of a stack slot is computed from the frame. -/
def slot (b : Block) (id : NodeId) (n : Node) : Option (List Tile) :=
  match n.imm with
  | some (.slot offset) => do
    let out ← b.valueOf? id
    return [tile id .slot [id] [] [.plain "LEA" [out, frame (Int64.ofInt offset)]]]
  | _ => none

/-! ## Selects -/

/-- The parts of a select: `out` becomes `no` and, if the test says so, then `yes`. -/
def selectParts (out yes no test : Part) (condition : Condition) : List Part :=
  [mov out no, test, .instruction "CMOV" (some condition) [out, yes]]

/-- The tile that takes in the comparison which decides a select, if a comparison does. -/
def selectCompare (b : Block) (id cond yesId noId : NodeId) (out yes no : Part) :
    Except Fault (List Tile) := do
  let comparison ← b.node cond
  match comparison.op.condition?, comparison.inputs with
  | some condition, [x, y] =>
    let _ ← b.node x
    let _ ← b.node y
    match b.valueOf? x, b.valueOf? y with
    | some left, some right =>
      return [tile id .selectCompare [id, cond] [yesId, noId, x, y]
        (selectParts out yes no (.plain "CMP" [left, right]) condition)]
    | _, _ => return []
  | _, _ => return []

/-- A select tests its condition; a second tile compares instead. -/
def select (b : Block) (id : NodeId) (n : Node) : Attempted (List Tile) :=
  match n.inputs with
  | [cond, yesId, noId] => do
    -- The order decides whether a missing width or a missing node comes to light first.
    let out ← operand b id
    let yes ← operand b yesId
    let no ← operand b noId
    let condition ← operand b cond
    let plain := tile id .select [id] [cond, yesId, noId]
      (selectParts out yes no (.plain "TEST" [condition, condition]) .notEqual)
    let wider ← selectCompare b id cond yesId noId out yes no
    return plain :: wider
  | _ => given none

/-! ## Calls -/

/-- The callee of a call, the arguments, and the nodes read for the callee. A direct call names
its callee in a symbol; an indirect one takes it as its first operand. -/
def callee (b : Block) (n : Node) : Attempted (Part × List NodeId × List NodeId) :=
  match n.imm with
  | some (.symbol name) => return (.symbol name, n.inputs, [])
  | _ =>
    match n.inputs with
    | [] => given none
    | first :: args => do
      let target ← operand b first
      return (target, args, [first])

/-- The instructions that push an argument. -/
def pushParts (value : Part) : Option (List Part) :=
  if isWide value then do
    return [.plain "PUSH" [← value.slice? .high], .plain "PUSH" [← value.slice? .low]]
  else some [.plain "PUSH" [value]]

/-- The instructions that push arguments, the last of them first. -/
def pushAll (b : Block) : List NodeId → Attempted (List Part)
  | [] => return []
  | id :: ids => do
    let value ← operand b id
    let pushes ← given (pushParts value)
    let rest ← pushAll b ids
    return pushes ++ rest

/-- The number of bytes that an argument takes on the stack. -/
def stackBytes (b : Block) (id : NodeId) : Nat :=
  if b.typeOf? id == some .i64 then 8 else 4

/-- The number of bytes that arguments take on the stack. -/
def stackBytesOfAll (b : Block) : List NodeId → Nat
  | [] => 0
  | id :: ids => stackBytes b id + stackBytesOfAll b ids

/-- The instructions that fetch the result of a call. -/
def resultParts (b : Block) (id : NodeId) (n : Node) : Option (List Part) :=
  match n.op with
  | .call => do
    let out ← b.valueOf? id
    if isWide out then movIntoHalves out (.register .eax) (.register .edx)
    else some [mov out (.register .eax)]
  | _ => some []

/-- A call pushes its arguments, calls, removes them and fetches the result. -/
def call (b : Block) (id : NodeId) (n : Node) : Attempted (List Tile) := do
  let (target, args, read) ← callee b n
  -- Pushed last to first, the words stand in memory first to last.
  let pushes ← pushAll b args.reverse
  let pushed := stackBytesOfAll b args
  let removal :=
    if pushed = 0 then []
    else [.plain "ADD" [.register .esp, .literal (Int64.ofNat pushed)]]
  let result ← given (resultParts b id n)
  return [tile id .call [id] (read ++ args)
    (pushes ++ [.plain "CALL" [target]] ++ removal ++ result)]

/-! ## Control flow -/

/-- A jump goes to its first label. -/
def jump (id : NodeId) (n : Node) : Option (List Tile) :=
  match n.targets with
  | target :: _ => some [tile id .jump [id] [] [.plain "JMP" [.label target]]]
  | [] => none

/-- A branch goes to the first of two labels if its condition is not zero, else to the second. -/
def branch (b : Block) (id : NodeId) (n : Node) : Attempted (List Tile) :=
  match n.condition?, n.targets with
  | some cond, [yes, no] => do
    let c ← operand b cond
    return [tile id .branch [id] [cond]
      [.plain "TEST" [c, c], .instruction "J" (some .notEqual) [.label yes],
        .plain "JMP" [.label no]]]
  | _, _ => given none

/-- The instructions that put a returned value where the caller finds it. -/
def returnParts (value : Part) : Option (List Part) :=
  if isWide value then do
    return [mov (.register .eax) (← value.slice? .low), mov (.register .edx) (← value.slice? .high)]
  else some [mov (.register .eax) value]

/-- The instructions that hand over what a return returns: nothing, or one value. -/
def handOver (b : Block) (inputs : List NodeId) : Attempted (List Part) :=
  match inputs with
  | [] => return []
  | [id] => do
    let value ← operand b id
    given (returnParts value)
  | _ => given none

/-- A return hands over its value and returns. -/
def ret (b : Block) (id : NodeId) (n : Node) : Attempted (List Tile) := do
  let parts ← handOver b n.inputs
  return [tile id .ret [id] n.inputs (parts ++ [.plain "RET" []])]

end Lowering

/-- The tiles of a node's fixed lowering; `none` if it has none. -/
def Block.lower (b : Block) (id : NodeId) : Except Fault (Option (List Tile)) := do
  let n ← b.node id
  match n.op with
  | .arg => return Lowering.arg b id n
  | .constant => return Lowering.constant b id n
  | .slot => return Lowering.slot b id n
  | .select => (Lowering.select b id n).run
  | .call | .callVoid => (Lowering.call b id n).run
  | .jump => return Lowering.jump id n
  | .branch => (Lowering.branch b id n).run
  | .ret => (Lowering.ret b id n).run
  | .entry => return some [Lowering.tile id .entry [id] [] []]
  | _ => return none

end TileSelect
