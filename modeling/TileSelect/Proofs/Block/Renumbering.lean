import Mathlib.Data.List.Sort
import Mathlib.Logic.Equiv.Defs
import TileSelect.Proofs.Block.Reachability
/-!
Renumbered blocks.

The nodes of a block may stand in any order, so there are many blocks that are the same but for
the numbers of their nodes. A permutation of the positions makes one of them from another: every
node moves to its new position, and its operands and its chain are renamed.

What the two blocks have in common is `Block.Renumbers`: looking up the new number gives the
renamed node. It holds at positions outside the block too, which keep their numbers, so that even
faults correspond. Everything later is derived from it and from the new numbers being distinct:
widths and values are the same, and so is the graph, up to names.
-/

set_option autoImplicit false

namespace TileSelect

open Relation

/-! ## Sets under renaming -/

namespace NodeSet

variable {f : NodeId → NodeId} {s t : NodeSet} {n k : NodeId}

theorem ext_mem (h : ∀ k, k ∈ s ↔ k ∈ t) : s = t := by
  obtain ⟨l, hl⟩ := s
  obtain ⟨m, hm⟩ := t
  obtain rfl : l = m := hl.eq_of_mem_iff hm h
  rfl

/-- The set of the new names. -/
def map (f : NodeId → NodeId) (s : NodeSet) : NodeSet := ofList (s.toList.map f)

/-- The members of a renamed set are the new names of its members. -/
@[simp] theorem mem_map : k ∈ s.map f ↔ ∃ n ∈ s, f n = k := by
  rw [map, mem_ofList, List.mem_map]
  rfl

/-- A new name is in the renamed set if the old one was in the set. -/
theorem mem_map_self (hf : Function.Injective f) : f n ∈ s.map f ↔ n ∈ s := by
  simp [hf.eq_iff]

/-- Adding a node and renaming can be done in either order. -/
theorem map_insert : (s.insert n).map f = (s.map f).insert (f n) :=
  ext_mem fun k => by simp [eq_comm]

theorem map_ofList (l : List NodeId) : (ofList l).map f = ofList (l.map f) :=
  ext_mem fun k => by simp

/-- The nodes of either set, renamed, are the renamed nodes of either set. Unlike differences, this
does not ask that no two nodes get the same name. -/
theorem map_union : (s.union t).map f = (s.map f).union (t.map f) :=
  ext_mem fun k => by simp [or_and_right, exists_or]

/-- What is left of a set is renamed like the whole if no two nodes get the same name. Without that,
a node might take another one with it. -/
theorem map_diff (hf : Function.Injective f) : (s.diff t).map f = (s.map f).diff (t.map f) := by
  refine ext_mem fun k => ?_
  simp only [mem_map, mem_diff]
  -- Only from right to left does it matter that different nodes keep different names.
  constructor
  · rintro ⟨n, ⟨hs, ht⟩, rfl⟩
    refine ⟨⟨n, hs, rfl⟩, ?_⟩
    rintro ⟨n', ht', hn⟩
    exact ht (hf hn ▸ ht')
  · rintro ⟨⟨n, hs, rfl⟩, ht⟩
    exact ⟨n, ⟨hs, fun hn => ht ⟨n, hn, rfl⟩⟩, rfl⟩

/-- Under new names that are different, different sets stay different. -/
theorem map_injective (hf : Function.Injective f) : Function.Injective (map f) := by
  intro s t h
  refine ext_mem fun k => ?_
  rw [← mem_map_self hf, h, mem_map_self hf]

end NodeSet

/-! ## Blocks under renaming -/

/-- The node with its operands and its chain renamed. -/
def Node.rename (f : NodeId → NodeId) (n : Node) : Node :=
  { n with inputs := n.inputs.map f, chain := n.chain.map f }

@[simp] theorem Node.value?_rename (f : NodeId → NodeId) (n : Node) :
    (n.rename f).value? = n.value? := rfl

@[simp] theorem Node.isProducer_rename (f : NodeId → NodeId) (n : Node) :
    (n.rename f).isProducer = n.isProducer := rfl

@[simp] theorem Node.literal?_rename (f : NodeId → NodeId) (n : Node) :
    (n.rename f).literal? = n.literal? := rfl

/-- A fault about a node, under its new name. -/
def Fault.rename (f : NodeId → NodeId) : Fault → Fault
  | .missingNode id => .missingNode (f id)
  | .endlessInclusion group => .endlessInclusion group

namespace Block

/-- The number that a permutation gives a node; positions outside the block keep theirs. -/
def renumbered {size : Nat} (π : Equiv.Perm (Fin size)) (id : NodeId) : NodeId :=
  if h : id < size then (π ⟨id, h⟩).val else id

/-- The block with its nodes permuted, and every operand and chain renamed accordingly. -/
def renumber (b : Block) (π : Equiv.Perm (Fin b.size)) : Block where
  place := b.place
  nodes := Array.ofFn fun i : Fin b.size =>
    let old := π.symm i
    have : old.val < b.nodes.size := old.isLt
    (b.nodes[old.val]).rename (renumbered π)
  types := b.types

/-- One block is the other with its nodes renumbered. -/
structure Renumbers (f : NodeId → NodeId) (b b' : Block) : Prop where
  bijective : Function.Bijective f
  types : b'.types = b.types
  size : b'.size = b.size
  node? : ∀ id, b'.node? (f id) = (b.node? id).map (Node.rename f)

section Permutation

variable {size : Nat} (π : Equiv.Perm (Fin size))

@[simp] theorem renumbered_val (i : Fin size) : renumbered π i = (π i).val := by
  simp [renumbered]

/-- A number that is no node of the block stays as it is. -/
theorem renumbered_of_le {id : NodeId} (h : size ≤ id) : renumbered π id = id := by
  simp [renumbered, Nat.not_lt.2 h]

theorem renumbered_symm (id : NodeId) : renumbered π.symm (renumbered π id) = id := by
  by_cases h : id < size
  · have hid : renumbered π id = (π ⟨id, h⟩).val := renumbered_val π ⟨id, h⟩
    rw [hid, renumbered_val, Equiv.symm_apply_apply]
  · rw [renumbered_of_le π (Nat.le_of_not_lt h), renumbered_of_le _ (Nat.le_of_not_lt h)]

/-- A permutation of the nodes gives every number a new one and uses every number. -/
theorem bijective_renumbered : Function.Bijective (renumbered π) :=
  Function.bijective_iff_has_inverse.2
    ⟨renumbered π.symm, renumbered_symm π, renumbered_symm π.symm⟩

end Permutation

/-- **A permuted block is the block with its nodes renumbered.** What comes after is about two
blocks that are so related, however the second one came about. -/
theorem renumbers_renumber (b : Block) (π : Equiv.Perm (Fin b.size)) :
    b.Renumbers (renumbered π) (b.renumber π) where
  bijective := bijective_renumbered π
  types := rfl
  size := Array.size_ofFn
  node? id := by
    by_cases h : id < b.size
    · have hid : renumbered π id = (π ⟨id, h⟩).val := renumbered_val π ⟨id, h⟩
      have hnode : b.node? id = some (getElem b.nodes id h) := Array.getElem?_eq_getElem h
      rw [hid, hnode, node?, renumber, Array.getElem?_ofFn, dif_pos (π ⟨id, h⟩).isLt]
      simp only [Fin.eta, Equiv.symm_apply_apply]
      rfl
    · -- Outside the block there is no node under the old number and none under the new one.
      have hold : b.node? id = none := Array.getElem?_eq_none (Nat.le_of_not_lt h)
      rw [renumbered_of_le π (Nat.le_of_not_lt h), hold]
      refine Array.getElem?_eq_none ?_
      rw [renumber, Array.size_ofFn]
      exact Nat.le_of_not_lt h

namespace Renumbers

variable {f : NodeId → NodeId} {b b' : Block} (hr : b.Renumbers f b')
include hr

theorem injective : Function.Injective f := hr.bijective.1

/-! ## Widths and values -/

/-- The widths of values are untouched, as values have numbers of their own. -/
theorem widthOf? (value : Nat) : b'.widthOf? value = b.widthOf? value := by
  rw [Block.widthOf?, Block.widthOf?, hr.types]

/-- A renumbered node yields what it yielded before, and so has the same width. Values are not
renumbered, only the positions of the nodes. -/
theorem typeOf? (id : NodeId) : b'.typeOf? (f id) = b.typeOf? id := by
  rw [Block.typeOf?, Block.typeOf?, hr.node?]
  cases b.node? id with
  | none => rfl
  | some n =>
    rw [Option.map_some]
    dsimp only
    rw [Node.value?_rename, funext hr.widthOf?]

/-- The operand of a renumbered node is the operand of the node, as it names the value and not the
position. -/
theorem valueOf? (id : NodeId) : b'.valueOf? (f id) = b.valueOf? id := by
  rw [Block.valueOf?, Block.valueOf?, hr.node?]
  cases b.node? id with
  | none => rfl
  | some n =>
    rw [Option.map_some]
    dsimp only
    rw [Node.value?_rename]
    simp only [hr.widthOf?]

/-! ## The graph -/

/-- A number is one of a node exactly if the new number is. -/
theorem lt_size {id : NodeId} : f id < b'.size ↔ id < b.size := by
  rw [← node?_isSome_iff, ← node?_isSome_iff, hr.node?]
  cases b.node? id <;> simp

/-- A node reads another exactly if it does under the new numbers. -/
theorem operand {x y : NodeId} : b'.Operand (f x) (f y) ↔ b.Operand x y := by
  rw [Operand, Operand, hr.node?]
  cases b.node? x with
  | none => simp
  | some n => simp [Node.rename, hr.injective.eq_iff]

/-- A node is chained to another exactly if it is under the new numbers. -/
theorem chain {x y : NodeId} : b'.Chain (f x) (f y) ↔ b.Chain x y := by
  rw [Chain, Chain, hr.node?]
  cases b.node? x with
  | none => simp
  | some n => simp [Node.rename, hr.injective.eq_iff]

/-- A node has to wait for another exactly if it does under the new numbers. -/
theorem edge {x y : NodeId} : b'.Edge (f x) (f y) ↔ b.Edge x y :=
  or_congr hr.operand hr.chain

/-- No operand points outside after the renumbering if none did before. -/
theorem operandsInRange (hb : b.OperandsInRange) : b'.OperandsInRange := by
  intro x y hxy
  obtain ⟨x, rfl⟩ := hr.bijective.2 x
  obtain ⟨y, rfl⟩ := hr.bijective.2 y
  exact hr.lt_size.2 (hb x y (hr.operand.1 hxy))

/-- Nothing points outside after the renumbering if nothing did before. -/
theorem inRange (hb : b.InRange) : b'.InRange := by
  intro x y hxy
  obtain ⟨x, rfl⟩ := hr.bijective.2 x
  obtain ⟨y, rfl⟩ := hr.bijective.2 y
  exact hr.lt_size.2 (hb x y (hr.edge.1 hxy))

/-- **A node leads to another exactly if it does under the new numbers.** Steps correspond in both
directions, as every node of the renumbered block is the new number of a node. -/
theorem reaches {x y : NodeId} : ReflTransGen b'.Edge (f x) (f y) ↔ ReflTransGen b.Edge x y := by
  constructor
  · -- Every node on the way has an old number, as all numbers are new ones.
    intro h
    have hback : ∀ z, ReflTransGen b'.Edge (f x) z → ∀ w, f w = z → ReflTransGen b.Edge x w := by
      intro z hz
      induction hz with
      | refl =>
        intro w hw
        rw [hr.injective hw]
      | tail _ hedge ih =>
        rename_i u v _
        rintro w rfl
        obtain ⟨u, rfl⟩ := hr.bijective.2 u
        exact (ih u rfl).tail (hr.edge.1 hedge)
    exact hback (f y) h y rfl
  · exact fun h => h.lift f fun _ _ => hr.edge.2

end Renumbers

end Block

end TileSelect
