import TileSelect.Block.Basic
/-!
Building blocks.

A builder adds nodes one after the other and numbers the values they yield in the same order,
so the names of values depend only on the order of construction.
-/

set_option autoImplicit false

namespace TileSelect

/-- A block under construction and the number of the next value. -/
structure Builder where
  block : Block
  nextValue : Nat

/-- A construction step that yields an `α`. -/
abbrev Build (α : Type) := StateM Builder α

namespace Build

variable {α : Type}

/-- The block that a construction builds. -/
def finish (place : BlockPlace) (steps : Build α) : Block :=
  (StateT.run steps ⟨.empty place, 0⟩ : Id (α × Builder)).2.block

/-- Adds a node, and yields its position. -/
def push (n : Node) : Build NodeId := fun s =>
  (s.block.size, { s with block := s.block.push n })

/-- A value that no other node yields, of the given width. -/
def freshValue (ty : ValueType) : Build Nat := fun s =>
  (s.nextValue, ⟨s.block.setWidth s.nextValue ty, s.nextValue + 1⟩)

/-- Adds a node that yields a value. -/
def producer (op : Operation) (ty : ValueType) (inputs : List NodeId) (imm : Option Immediate)
    (chain : Option NodeId) : Build NodeId := do
  let v ← freshValue ty
  push ⟨op, .value v, inputs, chain, imm⟩

/-- Adds a node that yields none. -/
def terminator (op : Operation) (inputs : List NodeId) (targets : List String)
    (imm : Option Immediate) (chain : Option NodeId) : Build NodeId :=
  push ⟨op, .targets targets, inputs, chain, imm⟩

/-- Adds a function argument. -/
def arg (index : Nat) (ty : ValueType) : Build NodeId :=
  producer .arg ty [] (some (.arg index)) none

/-- Adds a number. -/
def int (v : Int64) (ty : ValueType) : Build NodeId :=
  producer .constant ty [] (some (.int v)) none

/-- Adds the address of a global. -/
def global (symbol : String) : Build NodeId :=
  producer .constant .pointer [] (some (.symbol symbol)) none

/-- Adds an operation on values. -/
def op (op : Operation) (ty : ValueType) (inputs : List NodeId) : Build NodeId :=
  producer op ty inputs none none

/-- Adds a load. -/
def load (ty : ValueType) (address : NodeId) (chain : Option NodeId) : Build NodeId :=
  producer .load ty [address] none chain

/-- Adds a store. -/
def store (address value : NodeId) (chain : Option NodeId) : Build NodeId :=
  terminator .store [address, value] [] none chain

end Build

end TileSelect
