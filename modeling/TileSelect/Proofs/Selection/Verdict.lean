import TileSelect.Proofs.Selection.Renumbering
/-!
The walk and the verdict on any graph.

Nothing is promised about the block here: its nodes may stand in any order, wait for each other in
a circle, and name positions that do not exist. Two things are shown all the same.

The walk along dependencies ends by itself. Its turns are stated as a relation, without the number
of steps that bounds `Block.walk`. The pending nodes and the nodes not seen yet lose exactly one
with each turn, so there is no endless sequence of turns, and the bound is what is left at the
start.

The verdict on a tile inside the block is a statement about the graph. Every look-up the validator
makes then succeeds, so its searches are plain searches of lists, and what each of them finds is
read off the list.
-/

set_option autoImplicit false

namespace TileSelect

open Relation

/-! ## The turns of the walk -/

namespace Block

variable {b : Block}

/-- One turn of the walk: the first pending node is taken off and its successors are discovered. -/
inductive Turn (b : Block) : List NodeId × NodeSet → List NodeId × NodeSet → Prop where
  | visit (id : NodeId) (pending : List NodeId) (seen : NodeSet) :
    b.Turn (id :: pending, seen) (discover (b.successors id) (pending, seen))

/-- The nodes of the block that were not seen. -/
def unseen (b : Block) (seen : NodeSet) : List NodeId := b.ids.filter fun x => !seen.contains x

/-- What is left to do: the pending nodes, and the nodes that may still become pending. -/
def remaining (b : Block) (state : List NodeId × NodeSet) : Nat :=
  state.1.length + (b.unseen state.2).length

theorem remaining_mk {pending : List NodeId} {seen : NodeSet} :
    b.remaining (pending, seen) = pending.length + (b.unseen seen).length := rfl

/-- Seeing a new node of the block leaves one unseen node less. The unseen nodes have no duplicates,
and the new one was among them. -/
theorem length_unseen_insert {seen : NodeSet} {n : NodeId} (hn : n < b.size) (hnew : ¬ n ∈ seen) :
    (b.unseen (seen.insert n)).length + 1 = (b.unseen seen).length := by
  have hmem : n ∈ b.unseen seen := by
    rw [unseen, List.mem_filter, Bool.not_eq_true', ← Bool.not_eq_true, NodeSet.contains_iff]
    exact ⟨List.mem_range.2 hn, hnew⟩
  have hnodup : (b.unseen seen).Nodup := List.Nodup.filter _ List.nodup_range
  -- Seeing `n` takes it, and only it, out of the nodes not seen.
  have herase : b.unseen (seen.insert n) = (b.unseen seen).erase n := by
    rw [hnodup.erase_eq_filter, unseen, unseen, List.filter_filter]
    refine List.filter_congr fun x _ => ?_
    rw [Bool.eq_iff_iff]
    simp only [Bool.not_eq_true', ← Bool.not_eq_true, NodeSet.contains_iff, NodeSet.mem_insert,
      Bool.and_eq_true, bne_iff_ne, not_or]
  have hpos := List.length_pos_of_mem hmem
  rw [herase, List.length_erase_of_mem hmem]
  omega

/-- Discovering nodes of the block moves them from the unseen to the pending ones, so that as much
is left to do as before. -/
theorem remaining_discover {ns pending : List NodeId} {seen : NodeSet}
    (hns : ∀ n ∈ ns, n < b.size) :
    b.remaining (discover ns (pending, seen)) = b.remaining (pending, seen) := by
  induction ns generalizing pending seen with
  | nil => rfl
  | cons n ns ih =>
    have hrest : ∀ m ∈ ns, m < b.size := fun m hm => hns m (List.mem_cons_of_mem n hm)
    -- A node that was seen before is passed over. A new one makes one more of the pending nodes and
    -- one less of the unseen ones.
    rw [discover]
    split
    · exact ih hrest
    · rename_i hnew
      rw [NodeSet.contains_iff] at hnew
      have hunseen := length_unseen_insert (hns n List.mem_cons_self) hnew
      rw [ih hrest, remaining_mk, remaining_mk, List.length_cons]
      omega

/-- Every turn leaves one less to do: the node that is taken off. -/
theorem Turn.remaining {s s' : List NodeId × NodeSet} (h : b.Turn s s') :
    b.remaining s' + 1 = b.remaining s := by
  obtain ⟨id, pending, seen⟩ := h
  have hlt : ∀ y ∈ b.successors id, y < b.size := fun y hy => (mem_successors.1 hy).2
  rw [remaining_discover hlt, remaining_mk, remaining_mk, List.length_cons]
  omega

/-- **There is no endless walk**, whatever is pending and whatever was seen, since less and less is
left to do. -/
theorem wellFounded_turn (b : Block) : WellFounded fun s' s => b.Turn s s' := by
  refine Subrelation.wf ?_ (measure b.remaining).wf
  intro s' s h
  have hless := h.remaining
  exact Nat.lt_of_succ_le (by omega)

/-- A walk whose steps cover what is left to do goes on until nothing is pending. The bound on the
steps is therefore never used up. -/
theorem turns_walk {steps : Nat} {pending : List NodeId} {seen : NodeSet}
    (h : b.remaining (pending, seen) ≤ steps) :
    ReflTransGen b.Turn (pending, seen) ([], b.walk steps (pending, seen)) := by
  -- The induction is on the steps that are allowed, of which at least as many are left as there are
  -- turns to take.
  induction steps generalizing pending seen with
  | zero =>
    have hnil : pending = [] := by
      rw [remaining_mk] at h
      exact List.length_eq_zero_iff.1 (by omega)
    subst hnil
    exact .refl
  | succ steps ih =>
    cases pending with
    | nil => exact .refl
    | cons id pending =>
      have hturn := Turn.visit (b := b) id pending seen
      have hless := hturn.remaining
      have hrest : b.remaining (discover (b.successors id) (pending, seen)) ≤ steps := by omega
      exact .head hturn (ih hrest)

/-- The dependencies of a node are what was seen when nothing is pending any more, starting with the
node as the only one pending and nothing seen. -/
theorem turns_dependencies (b : Block) (x : NodeId) :
    ReflTransGen b.Turn ([x], .empty) ([], b.dependencies x) := by
  refine turns_walk ?_
  have hle : (b.unseen .empty).length ≤ b.size := by
    refine (List.length_filter_le _ _).trans ?_
    rw [ids, List.length_range]
  rw [remaining_mk, List.length_singleton]
  omega

end Block

/-! ## Searches that look up nodes that exist -/

section Search

variable {ε α β : Type}

/-- A search whose tests all have a result is a plain search, which stops at the first element that
passes. -/
theorem findM?_eq_find? {p : α → Except ε Bool} {test : α → Bool} {l : List α}
    (h : ∀ a ∈ l, p a = .ok (test a)) : l.findM? p = .ok (l.find? test) := by
  induction l with
  | nil => rfl
  | cons a l ih =>
    rw [List.findM?, h a List.mem_cons_self, ok_bind, List.find?_cons]
    cases test a with
    | true => rfl
    | false => exact ih fun x hx => h x (List.mem_cons_of_mem a hx)

theorem findSomeM?_eq_findSome? {f : α → Except ε (Option β)} {g : α → Option β} {l : List α}
    (h : ∀ a ∈ l, f a = .ok (g a)) : l.findSomeM? f = .ok (l.findSome? g) := by
  induction l with
  | nil => rfl
  | cons a l ih =>
    rw [List.findSomeM?_cons, h a List.mem_cons_self, ok_bind, List.findSome?_cons]
    cases g a with
    | some y => rfl
    | none => exact ih fun x hx => h x (List.mem_cons_of_mem a hx)

end Search

/-! ## What the validator looks for -/

/-- Instructions and labels can stand alone, and nothing else can. -/
theorem Part.isStandalone_iff {p : Part} :
    p.isStandalone = true
      ↔ (∃ mnemonic condition operands, p = .instruction mnemonic condition operands)
          ∨ ∃ name, p = .label name := by
  cases p <;> simp [isStandalone]

/-- A set has at most one member if all its members are the same, and only then: as it has no
duplicates, the length of its list is the number of its members. -/
theorem NodeSet.length_le_one_iff {s : NodeSet} :
    s.toList.length ≤ 1 ↔ ∀ x ∈ s, ∀ y ∈ s, x = y := by
  -- Left to right, the list has one element, which both members are. Right to left, any member is
  -- all there is.
  constructor
  · intro h x hx y hy
    rw [mem_def] at hx hy
    have hpos := List.length_pos_of_mem hx
    obtain ⟨z, hz⟩ := List.length_eq_one_iff.1 (by omega : s.toList.length = 1)
    rw [hz, List.mem_singleton] at hx hy
    exact hx.trans hy.symm
  · intro h
    by_cases hnil : s.toList = []
    · simp [hnil]
    · obtain ⟨x, hx⟩ := List.exists_mem_of_ne_nil _ hnil
      rcases length_le_one fun y hy => h y hy x hx with hnone | hone
      · exact absurd hnone hnil
      · simp [hone]

namespace Block

variable {b : Block} {t : Tile} {s : NodeSet} {x y : NodeId}

/-- The node is chained to a node outside a set. -/
def Leaves (b : Block) (s : NodeSet) (x : NodeId) : Prop := ∃ z, b.Chain x z ∧ ¬ z ∈ s

/-- The node is chained to a node in a set. -/
def Enters (b : Block) (s : NodeSet) (x : NodeId) : Prop := ∃ z, b.Chain x z ∧ z ∈ s

/-- Whether a node is chained to a node in a set; a node that does not exist is not. -/
def enters (b : Block) (s : NodeSet) (x : NodeId) : Bool :=
  (b.node? x).any fun n => n.chain.any s.contains

theorem enters_iff : b.enters s x = true ↔ b.Enters s x := by
  simp only [enters, Option.any_eq_true, NodeSet.contains_iff, Enters, Chain]
  grind

/-- The nodes that leave a tile are those that are covered and chained to the outside. -/
theorem mem_leaving : x ∈ b.leaving t ↔ x ∈ t.covered ∧ b.Leaves t.covered x := by
  refine ⟨chain_of_mem_leaving, ?_⟩
  rintro ⟨hcovered, z, ⟨n, hn, hchain⟩, hz⟩
  refine NodeSet.mem_filter.2 ⟨hcovered, ?_⟩
  rw [hn, Option.any_some, hchain, Option.any_some, Bool.not_eq_true', ← Bool.not_eq_true,
    NodeSet.contains_iff]
  exact hz

theorem chainsTo_eq_enters (hx : x < b.size) : b.chainsTo s.contains x = .ok (b.enters s x) := by
  obtain ⟨n, hn⟩ := node?_isSome_iff.2 hx
  rw [chainsTo, node_eq_ok.2 hn, ok_bind, enters, hn, Option.any_some]
  rfl

/-- The first of a node and its dependencies that is chained into a set. -/
def wayInto? (b : Block) (s : NodeSet) (x : NodeId) : Option NodeId :=
  (x :: (b.dependencies x).toList).find? (b.enters s)

/-- A node and its dependencies are what can be reached from it in any number of steps. -/
theorem mem_self_dependencies :
    y ∈ x :: (b.dependencies x).toList ↔ ReflTransGen b.Successor x y := by
  rw [List.mem_cons, ← NodeSet.mem_def, mem_dependencies, reflTransGen_iff_eq_or_transGen]

/-- No way into a set is found exactly if nothing that can be reached is chained into it. -/
theorem wayInto?_eq_none_iff :
    b.wayInto? s x = none ↔ ∀ y, ReflTransGen b.Successor x y → ¬ b.Enters s y := by
  rw [wayInto?, List.find?_eq_none]
  simp only [mem_self_dependencies, enters_iff]

theorem of_wayInto?_eq_some (h : b.wayInto? s x = some y) :
    ReflTransGen b.Successor x y ∧ b.Enters s y :=
  ⟨mem_self_dependencies.1 (List.mem_of_find?_eq_some h), enters_iff.1 (List.find?_some h)⟩

/-- The search from something that is read finds a way into the tile, if there is one, and has a
result in any case if everything is inside the block. -/
theorem chainedInput_eq (hx : x < b.size) :
    b.chainedInput s x = .ok ((b.wayInto? s x).map (.chainIntoTile x)) := by
  have hlookups : ∀ y ∈ x :: (b.dependencies x).toList,
      b.chainsTo s.contains y = .ok (b.enters s y) := by
    intro y hy
    refine chainsTo_eq_enters ?_
    rcases List.mem_cons.1 hy with rfl | hy
    · exact hx
    · exact lt_size_of_mem_dependencies hy
  rw [chainedInput, chainedInto, findM?_eq_find? hlookups]
  rfl

/-! ## The verdict -/

/-- The verdict on a tile inside the block, without look-ups that could fail. -/
def verdict (b : Block) (t : Tile) : Option Rejection :=
  match t.parts.find? fun p => !p.isStandalone with
  | some part => some (.notStandalone part)
  | none =>
    if 1 < (b.leaving t).toList.length then some (.conflictingChains (b.leaving t).toList)
    else t.inputs.toList.findSome? fun x => (b.wayInto? t.covered x).map (.chainIntoTile x)

/-- For a tile inside the block the validator gives this verdict: all nodes that it looks up are
there, so none of its searches fails. -/
theorem validate_eq_verdict (ht : t.Inside b) : b.validate t = .ok (b.verdict t) := by
  have hinputs : t.inputs.toList.findSomeM? (b.chainedInput t.covered)
      = .ok (t.inputs.toList.findSome? fun x => (b.wayInto? t.covered x).map (.chainIntoTile x)) :=
    findSomeM?_eq_findSome? fun x hx => chainedInput_eq (ht x (.inr hx))
  -- The look-ups all succeed, so that what is left are plain searches.
  rw [validate, verdict, filterM_chainsTo_outside ht, ok_bind, hinputs]
  cases t.parts.find? fun p => !p.isStandalone with
  | some part => rfl
  | none => by_cases hmany : 1 < (b.leaving t).toList.length <;> simp [hmany, pure_eq_ok]

/-- The three checks pass exactly if each of the searches finds nothing. They are made in a fixed
order, which matters only for which of several objections is given. -/
theorem verdict_eq_none_iff :
    b.verdict t = none
      ↔ (∀ p ∈ t.parts, p.isStandalone = true)
        ∧ (b.leaving t).toList.length ≤ 1
        ∧ ∀ x ∈ t.inputs, b.wayInto? t.covered x = none := by
  have hparts : (t.parts.find? fun p => !p.isStandalone) = none
      ↔ ∀ p ∈ t.parts, p.isStandalone = true := by
    simp
  rw [← hparts, verdict]
  cases t.parts.find? fun p => !p.isStandalone with
  | some part => simp
  | none =>
    by_cases hmany : 1 < (b.leaving t).toList.length
    · simp [hmany, Nat.not_le.2 hmany]
    · simp [hmany, Nat.not_lt.1 hmany, NodeSet.mem_def]

/-- A verdict of this kind names something that is read, and the way from it into the tile. It is
given only after the first two checks have passed. -/
theorem of_verdict_eq_chainIntoTile (h : b.verdict t = some (.chainIntoTile x y)) :
    x ∈ t.inputs ∧ b.wayInto? t.covered x = some y := by
  rw [verdict] at h
  split at h
  · cases h
  · split at h
    · cases h
    · obtain ⟨input, hinput, hway⟩ := List.exists_of_findSome?_eq_some h
      obtain ⟨via, hvia, heq⟩ := Option.map_eq_some_iff.1 hway
      cases heq
      exact ⟨hinput, hvia⟩

/-- **Dependencies are reachability, and the verdict follows from it.** On any block, the walk
along dependencies has no endless run, and ends with exactly the nodes that can be reached in one
or more steps along edges to nodes that exist; a node is among its own dependencies exactly if it
is on a cycle. On a tile inside the block there is a verdict. It accepts the tile exactly if all
parts are instructions or labels, at most one covered node is chained outside, and nothing at or
below an input is chained into the tile. A rejection for the last reason names an input, and a
node at or below it that is chained into the tile. -/
theorem dependencies_and_verdict (b : Block) :
    (WellFounded fun s' s => b.Turn s s')
    ∧ (∀ x, ReflTransGen b.Turn ([x], .empty) ([], b.dependencies x)
        ∧ ∀ y, y ∈ b.dependencies x ↔ TransGen b.Successor x y)
    ∧ ∀ t : Tile, t.Inside b →
        (∃ v, b.validate t = .ok v)
        ∧ (b.validate t = .ok none
            ↔ (∀ p ∈ t.parts,
                (∃ mnemonic condition operands, p = .instruction mnemonic condition operands)
                  ∨ ∃ name, p = .label name)
              ∧ (∀ c ∈ t.covered, ∀ c' ∈ t.covered,
                  b.Leaves t.covered c → b.Leaves t.covered c' → c = c')
              ∧ ∀ x ∈ t.inputs, ∀ y, ReflTransGen b.Successor x y → ¬ b.Enters t.covered y)
        ∧ ∀ x y, b.validate t = .ok (some (.chainIntoTile x y)) →
            x ∈ t.inputs ∧ ReflTransGen b.Successor x y ∧ b.Enters t.covered y := by
  refine ⟨b.wellFounded_turn, fun x => ⟨b.turns_dependencies x, fun y => mem_dependencies⟩, ?_⟩
  intro t ht
  have hvalidate := validate_eq_verdict ht
  refine ⟨⟨_, hvalidate⟩, ?_, fun x y hrejected => ?_⟩
  · rw [hvalidate, Except.ok.injEq, verdict_eq_none_iff, NodeSet.length_le_one_iff]
    simp only [Part.isStandalone_iff, mem_leaving, wayInto?_eq_none_iff]
    grind
  · rw [hvalidate, Except.ok.injEq] at hrejected
    obtain ⟨hx, hway⟩ := of_verdict_eq_chainIntoTile hrejected
    exact ⟨hx, of_wayInto?_eq_some hway⟩

/-- A load and a store that wait for each other, and a sum with an operand that does not exist. -/
def tangled : Block where
  place := ⟨"tangles", "f", "entry"⟩
  nodes := #[
    ⟨.arg, .value 0, [], none, some (.arg 0)⟩,
    ⟨.load, .value 1, [0], some 2, none⟩,
    ⟨.store, .value 2, [0, 1], some 1, none⟩,
    ⟨.add, .value 3, [1, 9], none, none⟩]
  types := []

/-- A tile of the store of `tangled`. -/
def tangledStore : Tile := ⟨2, .ofList [2], .ofList [0, 1], [], .intrinsic .entry⟩

/-- The store reads the load, which is chained to it: the tile of the store is rejected, for the
input that the theorem speaks of. The load is its own dependency, by way of the store. -/
theorem dependencies_and_verdict_tangled :
    tangledStore.Inside tangled
      ∧ tangled.validate tangledStore = .ok (some (.chainIntoTile 1 1))
      ∧ tangled.Enters tangledStore.covered 1
      ∧ TransGen tangled.Successor 1 1 := by
  have hinside : tangledStore.Inside tangled := by
    have hsmall : ∀ x ∈ tangledStore.covered.toList ++ tangledStore.inputs.toList,
        x < tangled.size := by decide
    exact fun x hx => hsmall x (List.mem_append.2 hx)
  -- The load is read by the tile and chained to the store, which the tile covers.
  have hrejected : tangled.validate tangledStore = .ok (some (.chainIntoTile 1 1)) := by
    decide +kernel
  obtain ⟨-, hreach, hverdict⟩ := tangled.dependencies_and_verdict
  refine ⟨hinside, hrejected, ((hverdict _ hinside).2.2 1 1 hrejected).2.2, ?_⟩
  exact ((hreach 1).2 1).1 (by decide)

end Block

end TileSelect
