/-!
Finite sets of nodes.

A set is the strictly ascending list of its members. The order is what output shows, and it
makes the representation canonical: two sets with the same members are the same set, so
comparing tiles compares sets and not the histories that built them. Each operation comes with
the one lemma that says what it does to membership; nothing else about it is needed later.
-/

set_option autoImplicit false

namespace TileSelect

/-- A node of a block, by its position. -/
abbrev NodeId := Nat

/-- A finite set of nodes. -/
structure NodeSet where
  toList : List NodeId
  ascending : toList.Pairwise (· < ·)
deriving DecidableEq

namespace NodeSet

/-! ## Construction -/

/-- The set without members. -/
def empty : NodeSet := ⟨[], .nil⟩

/-- Puts a node in its place in an ascending list, unless it is there. -/
def place (n : NodeId) : List NodeId → List NodeId
  | [] => [n]
  | m :: ms => if n < m then n :: m :: ms else if n = m then m :: ms else m :: place n ms

/-- A node that is put in its place is there, and no other node comes or goes. -/
theorem mem_place {n k : NodeId} {l : List NodeId} : k ∈ place n l ↔ k = n ∨ k ∈ l := by
  induction l with
  | nil => simp [place]
  | cons m ms ih => grind [place]

/-- **Placing keeps the order.** A list that ascends strictly still does, so a set holds no node
twice, and two sets with the same nodes are the same list. -/
theorem pairwise_place {n : NodeId} {l : List NodeId} (h : l.Pairwise (· < ·)) :
    (place n l).Pairwise (· < ·) := by
  induction l with
  | nil => simp [place]
  | cons m ms ih =>
    have hms := List.pairwise_cons.1 h
    rw [place]
    split
    · rename_i hlt
      exact .cons (fun k hk => by
        rcases List.mem_cons.1 hk with rfl | hk
        · exact hlt
        · exact Nat.lt_trans hlt (hms.1 k hk)) h
    · -- Further down there is either the node itself or a greater one.
      split
      · exact h
      · refine .cons (fun k hk => ?_) (ih hms.2)
        rcases mem_place.1 hk with rfl | hk
        · exact Nat.lt_of_le_of_ne (Nat.le_of_not_lt ‹_›) (Ne.symm ‹_›)
        · exact hms.1 k hk

/-- Adds a node. -/
def insert (n : NodeId) (s : NodeSet) : NodeSet := ⟨place n s.toList, pairwise_place s.ascending⟩

/-- Adds every node of a list. -/
def insertAll (s : NodeSet) (l : List NodeId) : NodeSet := l.foldl (fun t n => t.insert n) s

/-- The set of the nodes of a list. -/
def ofList (l : List NodeId) : NodeSet := empty.insertAll l

/-- The nodes of either set. -/
def union (s t : NodeSet) : NodeSet := s.insertAll t.toList

/-- The nodes of a set that pass a test. -/
def filter (p : NodeId → Bool) (s : NodeSet) : NodeSet :=
  ⟨s.toList.filter p, s.ascending.sublist List.filter_sublist⟩

/-- Whether a node is in the set. -/
def contains (s : NodeSet) (n : NodeId) : Bool := s.toList.contains n

/-- The nodes of the first set that are not in the second. -/
def diff (s t : NodeSet) : NodeSet := s.filter fun n => !t.contains n

/-! ## Membership -/

instance : Membership NodeId NodeSet := ⟨fun s n => n ∈ s.toList⟩

theorem mem_def {n : NodeId} {s : NodeSet} : n ∈ s ↔ n ∈ s.toList := Iff.rfl

instance (n : NodeId) (s : NodeSet) : Decidable (n ∈ s) :=
  inferInstanceAs (Decidable (n ∈ s.toList))

@[simp] theorem contains_iff {n : NodeId} {s : NodeSet} : s.contains n = true ↔ n ∈ s := by
  simp [contains, mem_def]

@[simp] theorem not_mem_empty (n : NodeId) : ¬ n ∈ empty := by
  simp [mem_def, empty]

@[simp] theorem mem_insert {n k : NodeId} {s : NodeSet} : k ∈ s.insert n ↔ k = n ∨ k ∈ s :=
  mem_place

/-- A set to which a list is added holds its own nodes and those of the list. The order of the list
and its duplicates do not matter. -/
@[simp] theorem mem_insertAll {k : NodeId} {s : NodeSet} {l : List NodeId} :
    k ∈ s.insertAll l ↔ k ∈ s ∨ k ∈ l := by
  induction l generalizing s with
  | nil => simp [insertAll]
  | cons n l ih =>
    have step : s.insertAll (n :: l) = (s.insert n).insertAll l := rfl
    rw [step, ih, mem_insert, List.mem_cons]
    grind

@[simp] theorem mem_ofList {k : NodeId} {l : List NodeId} : k ∈ ofList l ↔ k ∈ l := by
  simp [ofList]

@[simp] theorem mem_union {k : NodeId} {s t : NodeSet} : k ∈ s.union t ↔ k ∈ s ∨ k ∈ t := by
  rw [union, mem_insertAll, ← mem_def]

@[simp] theorem mem_filter {k : NodeId} {p : NodeId → Bool} {s : NodeSet} :
    k ∈ s.filter p ↔ k ∈ s ∧ p k = true := by
  simp [filter, mem_def]

/-- What is left of a set are its nodes that are not in the other. -/
@[simp] theorem mem_diff {k : NodeId} {s t : NodeSet} : k ∈ s.diff t ↔ k ∈ s ∧ ¬ k ∈ t := by
  rw [diff, mem_filter, Bool.not_eq_true', ← contains_iff (s := t), Bool.not_eq_true]

end NodeSet

end TileSelect
