import TileSelect.Asm.Part
import TileSelect.NodeSet
import TileSelect.Operation
/-!
Blocks: the operations of one straight-line piece of code, as a graph.

A node reads the values of its operands and may have to run after one other node, its chain.
Both are named by position, in any order: a node may come before the nodes it reads. Nothing
forces these positions to exist. A block with a position that does not exist is still a block,
and only *looking up* such a position is a fault; the operations below say by their type
whether they look anything up.
-/

set_option autoImplicit false

namespace TileSelect

/-- What a node carries besides its operands. -/
inductive Immediate where
  /-- The number of a constant. -/
  | int (value : Int64)
  /-- A linker symbol: the address of a global, or the callee of a direct call. -/
  | symbol (name : String)
  /-- The word at which a function argument starts. -/
  | arg (index : Nat)
  /-- The place of a stack slot in the frame. -/
  | slot (offset : Int)
deriving DecidableEq

/-- What comes of a node: a value, or a transfer of control to one of some labels. -/
inductive Result where
  | value (id : Nat)
  | targets (labels : List String)
deriving DecidableEq

/-- One operation of a block. -/
structure Node where
  op : Operation
  result : Result
  inputs : List NodeId
  chain : Option NodeId
  imm : Option Immediate
deriving DecidableEq

namespace Node

/-- The value that the node yields. -/
def value? (n : Node) : Option Nat :=
  match n.result with
  | .value id => some id
  | .targets _ => none

/-- Whether the node yields a value. -/
def isProducer (n : Node) : Bool := n.value?.isSome

/-- The labels that control may go to. -/
def targets (n : Node) : List String :=
  match n.result with
  | .value _ => []
  | .targets labels => labels

/-- The operand that decides a branch. -/
def condition? (n : Node) : Option NodeId :=
  match n.op with
  | .branch => n.inputs.head?
  | _ => none

/-- The number of an integer constant. -/
def literal? (n : Node) : Option Int64 :=
  match n.op, n.imm with
  | .constant, some (.int v) => some v
  | _, _ => none

end Node

/-- Where a block is, for messages. -/
structure BlockPlace where
  moduleName : String
  functionName : String
  blockName : String
deriving DecidableEq

/-- A block and the widths of the values it computes, the latest statement of a width first. -/
structure Block where
  place : BlockPlace
  nodes : Array Node
  types : List (Nat × ValueType)

/-- Why an answer cannot be given at all: a node was looked up that does not exist, or groups
include each other without end. -/
inductive Fault where
  | missingNode (id : NodeId)
  | endlessInclusion (group : String)
deriving DecidableEq

namespace Block

/-- The number of nodes. -/
def size (b : Block) : Nat := b.nodes.size

/-- The positions of the nodes, in order. -/
def ids (b : Block) : List NodeId := List.range b.size

/-- The node at a position, if there is one. -/
def node? (b : Block) (id : NodeId) : Option Node := b.nodes[id]?

/-- Looks up a node. -/
def node (b : Block) (id : NodeId) : Except Fault Node :=
  match b.node? id with
  | some n => .ok n
  | none => .error (.missingNode id)

/-- The width of a value, if it is known. -/
def widthOf? (b : Block) (value : Nat) : Option ValueType :=
  (b.types.find? fun entry => entry.1 == value).map Prod.snd

/-- The width of the value that a node yields, if it yields one of known width. -/
def typeOf? (b : Block) (id : NodeId) : Option ValueType :=
  match b.node? id with
  | some n => n.value?.bind b.widthOf?
  | none => none

/-- The value that a node yields as an operand, if its width is known. -/
def valueOf? (b : Block) (id : NodeId) : Option Part :=
  match b.node? id with
  | some n =>
    match n.value? with
    | some v => (b.widthOf? v).map fun ty => .value v ty none
    | none => none
  | none => none

/-- Adds a node at the end. -/
def push (b : Block) (n : Node) : Block := { b with nodes := b.nodes.push n }

/-- States the width of a value. -/
def setWidth (b : Block) (value : Nat) (ty : ValueType) : Block :=
  { b with types := (value, ty) :: b.types }

/-- The block without nodes. -/
def empty (place : BlockPlace) : Block := ⟨place, #[], []⟩

end Block

end TileSelect
