import TileSelect.Proofs.Asm.Values
import TileSelect.Tile
/-!
What code means: 32-bit words, computed by the nodes of a block on the one side and by the
instructions of a tile on the other.

A block is read as a set of equations. Every node has a word, the word of an operation is the
operation of the words of its operands, and how the words of arguments, calls and the like come
about is left open. A tile is run. Values are storage, a memory operand stands for the memory at
`base + index * scale + offset`, and only the instructions that 32-bit arithmetic needs have a
meaning; an instruction without one ends a run without a result.

What an instruction computes is said for any kind of words, not only for the machine's own: a check
of templates computes with expressions instead.
-/

set_option autoImplicit false

namespace TileSelect

/-! ## Words -/

/-- A machine word; arithmetic wraps. -/
abbrev Word := BitVec 32

/-- A number as a word: its low bits. -/
def Word.ofNumber (v : Int64) : Word := v.toBitVec.setWidth 32

/-- A function of one word. -/
inductive Unary where
  | increment
  | decrement
  | negate
  | complement
deriving DecidableEq

def Unary.apply : Unary → Word → Word
  | .increment, x => x + 1
  | .decrement, x => x - 1
  | .negate, x => -x
  | .complement, x => ~~~x

/-- A function of two words. -/
inductive Binary where
  /-- The second word, whatever the first is. -/
  | second
  | add
  | sub
  | mul
  | and
  | or
  | xor
  | shl
deriving DecidableEq

def Binary.apply : Binary → Word → Word → Word
  | .second, _, y => y
  | .add, x, y => x + y
  | .sub, x, y => x - y
  | .mul, x, y => x * y
  | .and, x, y => x &&& y
  | .or, x, y => x ||| y
  | .xor, x, y => x ^^^ y
  -- The machine looks at five bits of the count.
  | .shl, x, y => x <<< (y.toNat % 32)

/-! ## The machine -/

/-- The function of the instructions that change their one operand. -/
def Unary.ofMnemonic? : String → Option Unary
  | "INC" => some .increment
  | "DEC" => some .decrement
  | "NEG" => some .negate
  | "NOT" => some .complement
  | _ => none

/-- The function of the instructions that change their first operand by their second. -/
def Binary.ofMnemonic? : String → Option Binary
  | "MOV" => some .second
  | "ADD" => some .add
  | "SUB" => some .sub
  | "IMUL" => some .mul
  | "AND" => some .and
  | "OR" => some .or
  | "XOR" => some .xor
  | "SHL" => some .shl
  | _ => none

/-- What an operand stands for: a word, or the memory at an address. -/
inductive Datum (α : Type) where
  | number (word : α)
  | memory (address : α)

namespace Datum

variable {α β : Type}

/-- The word, or the address of the memory. -/
def weight : Datum α → α
  | .number x | .memory x => x

def address? : Datum α → Option α
  | .number _ => none
  | .memory x => some x

def map (f : α → β) : Datum α → Datum β
  | .number x => .number (f x)
  | .memory x => .memory (f x)

/-- The word of an operand changes as the operand does. -/
@[simp] theorem weight_map (f : α → β) (d : Datum α) : (d.map f).weight = f d.weight := by
  cases d <;> rfl

/-- Two operands of a kind with the same word are the same. -/
theorem map_eq_const {f : α → β} {d : Datum α} {y : β} (h : f d.weight = y) :
    d.map f = d.map fun _ => y := by
  cases d <;> exact congrArg _ h

end Datum

/-- Words of some kind, with the functions of words and a memory. -/
structure Arithmetic (α : Type) where
  memory : α → α
  unary : Unary → α → α
  binary : Binary → α → α → α

namespace Arithmetic

variable {α : Type}

/-- What an instruction gets when it reads an operand. -/
def read (a : Arithmetic α) : Datum α → α
  | .number x => x
  | .memory x => a.memory x

/-- What an instruction leaves in its first operand, given what was there and what the other
operands stand for. -/
def result? (a : Arithmetic α) (mnemonic : String) (old : α) : List (Datum α) → Option α
  | [] => (Unary.ofMnemonic? mnemonic).map fun f => a.unary f old
  | [d] =>
    -- It is the address that counts here; the memory is not read.
    if mnemonic = "LEA" then d.address?
    else (Binary.ofMnemonic? mnemonic).map fun f => a.binary f old (a.read d)
  | _ => none

end Arithmetic

/-- What a run finds in place: the memory, and where symbols are. -/
structure World where
  memory : Word → Word
  address : String → Word

/-- Words with the memory of a world. -/
def World.arithmetic (w : World) : Arithmetic Word := ⟨w.memory, Unary.apply, Binary.apply⟩

/-- The words that values hold. -/
abbrev State := Nat → Word

def State.set (st : State) (v : Nat) (x : Word) : State := fun u => if u = v then x else st u

/-- `base + index * scale + offset`, given what the components stand for; an absent one adds
nothing. -/
def Address.sum? {α : Type} (number? : α → Option Word) (a : Address α) : Option Word := do
  let base ← a.base.elim (some 0) number?
  let index ← a.index.elim (some 0) number?
  let offset ← a.offset.elim (some 0) number?
  return base + index * BitVec.ofNat 32 a.scale + offset

namespace Part

/-- The word that a whole 32-bit value, a number or a symbol stands for. -/
def number? (w : World) (st : State) : Part → Option Word
  | .value v .i32 none => some (st v)
  | .imm v _ => some (.ofNumber v)
  | .symbol name => some (w.address name)
  | _ => none

/-- What an operand stands for. -/
def datum? (w : World) (st : State) : Part → Option (Datum Word)
  | .memory a => (a.sum? (number? w st)).map .memory
  | p => (p.number? w st).map .number

/-- The value that an instruction may change. -/
def place? : Part → Option Nat
  | .value v .i32 none => some v
  | _ => none

/-- The state after an instruction. -/
def step? (w : World) (st : State) : Part → Option State
  | .instruction mnemonic none (out :: operands) => do
    let v ← out.place?
    let data ← operands.mapM (datum? w st)
    let x ← w.arithmetic.result? mnemonic (st v) data
    return st.set v x
  | _ => none

end Part

/-- The state after the instructions of a tile, one after the other. -/
def Tile.run? (w : World) (tile : Tile) (st : State) : Option State :=
  tile.parts.foldlM (Part.step? w) st

/-! ## Blocks -/

/-- The function of an operation with one operand. -/
def Operation.unary? : Operation → Option Unary
  | .neg => some .negate
  | .not => some .complement
  | _ => none

/-- The function of an operation with two operands. -/
def Operation.binary? : Operation → Option Binary
  | .add => some .add
  | .sub => some .sub
  | .mul => some .mul
  | .and => some .and
  | .or => some .or
  | .xor => some .xor
  | _ => none

/-- The operations of 32-bit arithmetic. -/
def Operation.arithmetic : List Operation := [.add, .sub, .mul, .and, .or, .xor, .neg, .not]

/-- The word of a node is what the node says it is: a constant is its number or the address of its
symbol, a load reads memory, and arithmetic is arithmetic. A shift to the left is understood if its
count is the number two. -/
def Node.Means (b : Block) (w : World) (word : NodeId → Word) (id : NodeId) (n : Node) : Prop :=
  match n.op, n.inputs with
  | .constant, _ =>
    match n.imm with
    | some (.int v) => word id = .ofNumber v
    | some (.symbol name) => word id = w.address name
    | _ => True
  | .load, [x] => word id = w.memory (word x)
  | .shl, [x, y] => (b.node? y).bind Node.literal? = some 2 → word id = word x * 4
  | op, [x] => ∀ f, op.unary? = some f → word id = f.apply (word x)
  | op, [x, y] => ∀ f, op.binary? = some f → word id = f.apply (word x) (word y)
  | _, _ => True

/-- The words of all nodes are what the nodes say. -/
def Block.Consistent (b : Block) (w : World) (word : NodeId → Word) : Prop :=
  ∀ id n, b.node? id = some n → n.Means b w word id

/-- The value of every node but one holds the word of the node. -/
def Block.HoldsAllBut (b : Block) (id : NodeId) (word : NodeId → Word) (st : State) : Prop :=
  ∀ x v, x ≠ id → b.Yields x v → st v = word x

/-- The tile computes the node: started where the values of all other nodes hold their words, its
instructions run to an end and leave the word of the node in its value. -/
def Tile.Computes (b : Block) (id : NodeId) (tile : Tile) : Prop :=
  ∀ w word, b.Consistent w word → ∀ st, b.HoldsAllBut id word st →
    ∃ st', tile.run? w st = some st' ∧ ∀ v, b.Yields id v → st' v = word id

/-! ## Small facts -/

/-- A value that has been written holds what was written. -/
@[simp] theorem State.set_self (st : State) (v : Nat) (x : Word) : st.set v x v = x := by
  simp [set]

theorem State.set_of_ne (st : State) {v u : Nat} (x : Word) (h : u ≠ v) : st.set v x u = st u := by
  simp [set, h]

/-- Writing the value of a node leaves the other nodes alone, since no two nodes yield the same
value. The one node is the exception anyway. -/
theorem Block.HoldsAllBut.set {b : Block} {id : NodeId} {word : NodeId → Word} {st : State}
    (h : b.HoldsAllBut id word st) (hb : b.DistinctValues) {v : Nat} (hv : b.Yields id v)
    (x : Word) : b.HoldsAllBut id word (st.set v x) := by
  intro y u hy hu
  have hne : u ≠ v := by
    rintro rfl
    exact hy (hb y id u hu hv)
  rw [st.set_of_ne x hne, h y u hy hu]

namespace Block.Consistent

variable {b : Block} {w : World} {word : NodeId → Word} {id x y : NodeId} {n : Node}
  (h : b.Consistent w word) (hn : b.node? id = some n)
include h hn

/-- The word of a constant with a number is that number, reduced to the width of a word. Consistency
says so of every node with a number. -/
theorem literal {v : Int64} (hv : n.literal? = some v) : word id = .ofNumber v := by
  have hmeans := h id n hn
  unfold Node.literal? at hv
  split at hv
  · rename_i hop himm
    cases hv
    simpa only [Node.Means, hop, himm] using hmeans
  · cases hv

/-- The word of a constant with a symbol is the address of the symbol. -/
theorem symbol {name : String} (hop : n.op = .constant) (himm : n.imm = some (.symbol name)) :
    word id = w.address name := by
  have hmeans := h id n hn
  simpa only [Node.Means, hop, himm] using hmeans

/-- The word of a load is what the memory holds at the word of its operand. -/
theorem load (hop : n.op = .load) (hin : n.inputs = [x]) : word id = w.memory (word x) := by
  have hmeans := h id n hn
  simpa only [Node.Means, hop, hin] using hmeans

/-- A shift by two multiplies by four; it is the one shift that addresses make use of. -/
theorem shl (hop : n.op = .shl) (hin : n.inputs = [x, y])
    (hy : (b.node? y).bind Node.literal? = some 2) : word id = word x * 4 := by
  have hmeans := h id n hn
  simp only [Node.Means, hop, hin] at hmeans
  exact hmeans hy

theorem unary {f : Unary} (hop : n.op.unary? = some f) (hin : n.inputs = [x]) :
    word id = f.apply (word x) := by
  have hmeans := h id n hn
  cases hcase : n.op <;> rw [hcase] at hop <;> cases hop <;>
    simpa [Node.Means, hcase, hin, Operation.unary?] using hmeans

/-- The word of an operation with two operands, in their order. -/
theorem binary {f : Binary} (hop : n.op.binary? = some f) (hin : n.inputs = [x, y]) :
    word id = f.apply (word x) (word y) := by
  have hmeans := h id n hn
  cases hcase : n.op <;> rw [hcase] at hop <;> cases hop <;>
    simpa [Node.Means, hcase, hin, Operation.binary?] using hmeans

end Block.Consistent

/-- Where operands may be exchanged, so may the words: the operations that commute stand for
functions that do. -/
theorem Binary.apply_comm {op : Operation} {f : Binary} (hop : op.binary? = some f)
    (hcomm : op.isCommutative = true) (x y : Word) : f.apply x y = f.apply y x := by
  cases op <;> cases hcomm <;> cases hop
  · exact BitVec.add_comm x y
  · exact BitVec.mul_comm x y
  · exact BitVec.and_comm x y
  · exact BitVec.or_comm x y
  · exact BitVec.xor_comm x y

namespace Word

/-- Sums of numbers wrap at a width that is a multiple of that of words, so they are sums of words.
-/
@[simp] theorem ofNumber_add (a b : Int64) : ofNumber (a + b) = ofNumber a + ofNumber b := by
  rw [ofNumber, Int64.toBitVec_add, BitVec.setWidth_add _ _ (by decide)]
  rfl

theorem ofNumber_mul (a : Int64) (k : Nat) :
    ofNumber (a * Int64.ofNat k) = ofNumber a * BitVec.ofNat 32 k := by
  rw [ofNumber, Int64.toBitVec_mul, BitVec.setWidth_mul _ _ (by decide), Int64.toBitVec_ofNat',
    BitVec.setWidth_ofNat_of_le (by decide)]
  rfl

end Word

/-- An address has a sum if each component that is there stands for a word; one that is absent
counts as zero. -/
theorem Address.sum?_eq_some {α : Type} {number? : α → Option Word} {a : Address α} {x : Word} :
    a.sum? number? = some x ↔ ∃ base index offset, a.base.elim (some 0) number? = some base
      ∧ a.index.elim (some 0) number? = some index
      ∧ a.offset.elim (some 0) number? = some offset
      ∧ base + index * BitVec.ofNat 32 a.scale + offset = x := by
  simp [sum?, Option.bind_eq_some_iff]

namespace Part

variable {w : World} {st : State} {p : Part} {d : Datum Word}

/-- A memory operand stands for the memory at its sum. -/
theorem datum?_memory {a : Address Part} :
    (Part.memory a).datum? w st = some d
      ↔ ∃ x, a.sum? (number? w st) = some x ∧ d = .memory x := by
  rw [datum?, Option.map_eq_some_iff]
  simp only [eq_comm]

theorem datum?_of_ne_memory (hp : ∀ a, p ≠ .memory a) :
    p.datum? w st = (p.number? w st).map .number := by
  cases p with
  | memory a => exact absurd rfl (hp a)
  | instruction | label | reference | register | value | temp | imm | symbol => rfl

/-- The word of a part that is no memory is its weight. -/
theorem number?_of_datum? (h : p.datum? w st = some d) (hp : ∀ a, p ≠ .memory a) :
    p.number? w st = some d.weight := by
  rw [datum?_of_ne_memory hp, Option.map_eq_some_iff] at h
  obtain ⟨x, hx, rfl⟩ := h
  exact hx

end Part

end TileSelect
