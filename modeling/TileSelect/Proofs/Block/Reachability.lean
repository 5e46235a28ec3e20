import Mathlib.Logic.Relation
import TileSelect.Block.Dependencies
import TileSelect.Proofs.Faults
/-!
The graph of a block, and the walk along it.

A block is two graphs at once: the operands say what a node reads, the operands and the chain
together say what it has to wait for. Both are stated here as plain relations between positions,
with the two conditions a caller may promise about them, that they stay inside the block and
that they form no cycle.

The walk behind `Block.dependencies` is bounded by a number of steps, so what has to be shown is
that the bound is never the reason it ends. The count that settles it: a node enters the pending
list only in the step in which it is first seen, so the pending nodes and the nodes not yet seen
together lose one with every step, and there are `size + 1` of them at the start.
-/

set_option autoImplicit false

namespace TileSelect

open Relation

namespace Block

/-! ## The two graphs -/

/-- A node reads the value of another. -/
def Operand (b : Block) (x y : NodeId) : Prop := ∃ n, b.node? x = some n ∧ y ∈ n.inputs

/-- A node is chained to another. -/
def Chain (b : Block) (x y : NodeId) : Prop := ∃ n, b.node? x = some n ∧ n.chain = some y

/-- A node has to wait for another: it reads it or is chained to it. -/
def Edge (b : Block) (x y : NodeId) : Prop := b.Operand x y ∨ b.Chain x y

/-- Every operand is a node of the block. -/
def OperandsInRange (b : Block) : Prop := ∀ x y, b.Operand x y → y < b.size

/-- Every operand and every chain is a node of the block. -/
def InRange (b : Block) : Prop := ∀ x y, b.Edge x y → y < b.size

/-- No node is an operand of itself, directly or not. -/
def OperandsAcyclic (b : Block) : Prop := ∀ x, ¬ TransGen b.Operand x x

/-- No node has to wait for itself. -/
def Acyclic (b : Block) : Prop := ∀ x, ¬ TransGen b.Edge x x

/-- The node has as many operands as its operation takes, if that number is fixed. -/
def Fits (b : Block) (x : NodeId) : Prop :=
  ∀ n k, b.node? x = some n → n.op.arity = some k → n.inputs.length = k

/-- If nothing points out of the block, no operand does. -/
theorem InRange.operands {b : Block} (h : b.InRange) : b.OperandsInRange :=
  fun x y hxy => h x y (.inl hxy)

theorem Acyclic.operands {b : Block} (h : b.Acyclic) : b.OperandsAcyclic :=
  fun x hx => h x (hx.lift id fun _ _ => .inl)

/-- An edge is an operand or a chain, which is how the program lists them. -/
theorem edge_iff_mem_edges {b : Block} {x y : NodeId} :
    b.Edge x y ↔ ∃ n, b.node? x = some n ∧ y ∈ n.edges := by
  simp only [Edge, Operand, Chain, Node.edges, List.mem_append, Option.mem_toList]
  grind

/-- An edge to a node that exists, which is what the walk follows. -/
def Successor (b : Block) (x y : NodeId) : Prop := b.Edge x y ∧ y < b.size

/-- The successors that the walk looks up are the edges to nodes that exist. -/
theorem mem_successors {b : Block} {x y : NodeId} : y ∈ b.successors x ↔ b.Successor x y := by
  rw [Successor, edge_iff_mem_edges, successors]
  cases b.node? x <;> simp

/-- In a block where nothing points outside, the walk follows every edge. -/
theorem successor_eq_edge {b : Block} (h : b.InRange) : b.Successor = b.Edge := by
  funext x y
  exact propext ⟨fun hxy => hxy.1, fun hxy => ⟨hxy, h x y hxy⟩⟩

/-! ## Blocks in order -/

/-- Every node comes after the nodes it waits for, as in a block built node by node. -/
def Ordered (b : Block) : Prop := ∀ x, x < b.size → ∀ n, b.node? x = some n → ∀ y ∈ n.edges, y < x

instance (b : Block) : Decidable b.Ordered :=
  inferInstanceAs (Decidable (∀ x, x < b.size → ∀ n, b.node? x = some n → ∀ y ∈ n.edges, y < x))

/-- In an ordered block edges lead to smaller numbers. -/
theorem Ordered.lt_of_edge {b : Block} (h : b.Ordered) {x y : NodeId} (hxy : b.Edge x y) :
    y < x := by
  obtain ⟨n, hn, hy⟩ := edge_iff_mem_edges.1 hxy
  exact h x (node?_isSome_iff.1 ⟨n, hn⟩) n hn y hy

/-- In an ordered block nothing points outside, since the numbers of nodes have none missing. -/
theorem Ordered.inRange {b : Block} (h : b.Ordered) : b.InRange := by
  intro x y hxy
  obtain ⟨n, hn, -⟩ := edge_iff_mem_edges.1 hxy
  exact Nat.lt_trans (h.lt_of_edge hxy) (node?_isSome_iff.1 ⟨n, hn⟩)

/-- An ordered block has no cycle: along a cycle the numbers would get smaller and come back. -/
theorem Ordered.acyclic {b : Block} (h : b.Ordered) : b.Acyclic := by
  have hlt : ∀ {x y : NodeId}, TransGen b.Edge x y → y < x := by
    intro x y hxy
    induction hxy with
    | single hxy => exact h.lt_of_edge hxy
    | tail _ hyz ih => exact Nat.lt_trans (h.lt_of_edge hyz) ih
  exact fun x hx => Nat.lt_irrefl x (hlt hx)

/-! ## One step of the walk -/

/-- After a step the nodes that were seen are the old ones and those that were looked at, whether or
not they had been seen before. -/
theorem mem_seen_discover {ns pending : List NodeId} {seen : NodeSet} {x : NodeId} :
    x ∈ (discover ns (pending, seen)).2 ↔ x ∈ seen ∨ x ∈ ns := by
  induction ns generalizing pending seen with
  | nil => simp [discover]
  | cons n ns ih =>
    rw [discover]
    split
    · -- A node that was seen before is passed over, and it is in the set already.
      rename_i hn
      rw [NodeSet.contains_iff] at hn
      rw [ih, List.mem_cons]
      constructor
      · rintro (h | h)
        · exact .inl h
        · exact .inr (.inr h)
      · rintro (h | rfl | h)
        · exact .inl h
        · exact .inl hn
        · exact .inr h
    · rw [ih, NodeSet.mem_insert, List.mem_cons]
      grind

/-- Only nodes seen for the first time become pending. Together with `mem_seen_discover` this says
all that one step does, so the walk itself need not be opened further down. -/
theorem mem_pending_discover {ns pending : List NodeId} {seen : NodeSet} {x : NodeId} :
    x ∈ (discover ns (pending, seen)).1 ↔ x ∈ pending ∨ (x ∈ ns ∧ ¬ x ∈ seen) := by
  induction ns generalizing pending seen with
  | nil => simp [discover]
  | cons n ns ih =>
    rw [discover]
    split
    · rename_i hn
      rw [NodeSet.contains_iff] at hn
      rw [ih, List.mem_cons]
      constructor
      · rintro (h | ⟨h, hs⟩)
        · exact .inl h
        · exact .inr ⟨.inr h, hs⟩
      · rintro (h | ⟨rfl | h, hs⟩)
        · exact .inl h
        · exact absurd hn hs
        · exact .inr ⟨h, hs⟩
    · rename_i hn
      rw [NodeSet.contains_iff] at hn
      rw [ih, NodeSet.mem_insert, List.mem_cons, List.mem_cons]
      grind

/-- Placing a node that is not there yet makes the list longer by one. -/
theorem length_place {n : NodeId} {l : List NodeId} (h : ¬ n ∈ l) :
    (NodeSet.place n l).length = l.length + 1 := by
  induction l with
  | nil => rfl
  | cons m ms ih => grind [NodeSet.place]

/-- A step adds as many nodes to the pending ones as to those seen, which is why the walk runs out
of steps no sooner than out of nodes. -/
theorem length_discover {ns pending : List NodeId} {seen : NodeSet} :
    (discover ns (pending, seen)).1.length + seen.toList.length
      = pending.length + (discover ns (pending, seen)).2.toList.length := by
  induction ns generalizing pending seen with
  | nil => rfl
  | cons n ns ih =>
    rw [discover]
    split
    · exact ih
    · rename_i hn
      rw [NodeSet.contains_iff, NodeSet.mem_def] at hn
      have hlen : (seen.insert n).toList.length = seen.toList.length + 1 := length_place hn
      have := @ih (n :: pending) (seen.insert n)
      rw [hlen, List.length_cons] at this
      omega

/-! ## The walk as a whole -/

/-- What holds of the pending and the seen nodes at every step of a walk from `start`. -/
structure Exploring (b : Block) (start : NodeId) (pending : List NodeId) (seen : NodeSet) :
    Prop where
  /-- What was seen is there to be seen. -/
  sound : ∀ x, x ∈ seen → TransGen b.Successor start x
  /-- What is pending is the start or was seen. -/
  pending_seen : ∀ x, x ∈ pending → x = start ∨ x ∈ seen
  /-- All successors of a node that is no longer pending were seen. -/
  closed : ∀ x, x = start ∨ x ∈ seen → ¬ x ∈ pending → ∀ y, b.Successor x y → y ∈ seen

/-- Before the walk its start is pending, and nothing has been seen. -/
theorem Exploring.init (b : Block) (start : NodeId) : b.Exploring start [start] .empty where
  sound x hx := absurd hx (NodeSet.not_mem_empty x)
  pending_seen x hx := .inl (List.mem_singleton.1 hx)
  closed x hx hp := by
    rcases hx with rfl | hx
    · exact absurd (List.mem_singleton.2 rfl) hp
    · exact absurd hx (NodeSet.not_mem_empty x)

/-- **One step keeps the invariant.** A node that is newly seen can be reached through the node that
was taken off, and its own successors are not forgotten, because it becomes pending itself. -/
theorem Exploring.step {b : Block} {start id : NodeId} {pending : List NodeId} {seen : NodeSet}
    (h : b.Exploring start (id :: pending) seen) :
    b.Exploring start (discover (b.successors id) (pending, seen)).1
      (discover (b.successors id) (pending, seen)).2 where
  sound x hx := by
    rcases mem_seen_discover.1 hx with hx | hx
    · exact h.sound x hx
    · have hedge := mem_successors.1 hx
      rcases h.pending_seen id List.mem_cons_self with rfl | hid
      · exact .single hedge
      · exact (h.sound id hid).tail hedge
  pending_seen x hx := by
    rw [mem_seen_discover]
    rcases mem_pending_discover.1 hx with hx | ⟨hx, -⟩
    · rcases h.pending_seen x (List.mem_cons_of_mem id hx) with hx | hx
      · exact .inl hx
      · exact .inr (.inl hx)
    · exact .inr (.inr hx)
  closed x hx hp y hxy := by
    rw [mem_seen_discover]
    rw [mem_pending_discover, not_or] at hp
    obtain ⟨hnp, hfresh⟩ := hp
    by_cases hid : x = id
    · exact .inr (mem_successors.2 (hid ▸ hxy))
    -- `x` was not pending before either, so the invariant already had its successors.
    · have hold : x = start ∨ x ∈ seen := by
        rcases hx with hx | hx
        · exact .inl hx
        · rcases mem_seen_discover.1 hx with hx | hx
          · exact .inr hx
          · exact .inr (Decidable.not_not.1 fun hs => hfresh ⟨hx, hs⟩)
      refine .inl (h.closed x hold ?_ y hxy)
      rw [List.mem_cons, not_or]
      exact ⟨hid, hnp⟩

/-- With nothing pending, what was seen is all there is: it is closed under successors, and
everything in it can be reached. -/
theorem Exploring.mem_iff_of_nil {b : Block} {start x : NodeId} {seen : NodeSet}
    (h : b.Exploring start [] seen) : x ∈ seen ↔ TransGen b.Successor start x := by
  refine ⟨h.sound x, fun hx => ?_⟩
  induction hx with
  | single hxy => exact h.closed start (.inl rfl) List.not_mem_nil _ hxy
  | tail _ hyz ih => exact h.closed _ (.inr ih) List.not_mem_nil _ hyz

/-- Nodes that were seen exist, so there are at most as many of them as nodes. This is why as many
steps as there are nodes are enough for the walk. -/
theorem Exploring.length_seen_le {b : Block} {start : NodeId} {pending : List NodeId}
    {seen : NodeSet} (h : b.Exploring start pending seen) : seen.toList.length ≤ b.size := by
  have hsub : seen.toList ⊆ List.range b.size := by
    intro x hx
    obtain ⟨y, -, hyx⟩ := TransGen.tail'_iff.1 (h.sound x hx)
    exact List.mem_range.2 hyx.2
  have hnodup : List.Nodup seen.toList := seen.ascending.imp Nat.ne_of_lt
  simpa using List.Nodup.length_le_of_subset hnodup hsub

/-- **The walk ends by itself.** As long as the steps left cover the pending nodes and the nodes not
yet seen, the walk sees exactly what can be reached. The induction is on the steps, and one step
takes a node off while every node that becomes pending is new. -/
theorem mem_walk {b : Block} {start x : NodeId} {steps : Nat} {pending : List NodeId}
    {seen : NodeSet} (h : b.Exploring start pending seen)
    (hsteps : pending.length + (b.size - seen.toList.length) ≤ steps) :
    x ∈ b.walk steps (pending, seen) ↔ TransGen b.Successor start x := by
  induction steps generalizing pending seen with
  | zero =>
    have hnil : pending = [] := List.length_eq_zero_iff.1 (by omega)
    subst hnil
    exact h.mem_iff_of_nil
  | succ steps ih =>
    cases pending with
    | nil => exact h.mem_iff_of_nil
    | cons id pending =>
      -- What the step adds to the pending nodes it takes away from those not yet seen.
      have hle := h.step.length_seen_le
      have hlen := @length_discover (b.successors id) pending seen
      refine ih h.step ?_
      rw [List.length_cons] at hsteps
      omega

/-- **Dependencies are reachability.** The dependencies of a node are the nodes that can be
reached from it in one or more steps along edges to nodes that exist. -/
theorem mem_dependencies {b : Block} {x y : NodeId} :
    y ∈ b.dependencies x ↔ TransGen b.Successor x y := by
  refine mem_walk (Exploring.init b x) ?_
  simp [NodeSet.empty]
  omega

end Block

end TileSelect
