import TileSelect.Asm.Halves
import TileSelect.Proofs.Faults
/-!
The values that occur in assembly.

A value is read or written wherever it stands: as an operand, as a component of an address,
whole or halved. The order of the occurrences and their number never matter, so the list below
is only asked for its members.
-/

set_option autoImplicit false

namespace TileSelect

namespace Part

mutual

/-- The values that occur in a part. -/
def values : Part → List Nat
  | .instruction _ _ operands => valuesOfAll operands
  | .memory ⟨base, index, _, offset⟩ =>
    valuesOfOption base ++ valuesOfOption index ++ valuesOfOption offset
  | .value id _ _ => [id]
  | .label _ | .reference .. | .register _ | .temp .. | .imm .. | .symbol _ => []

/-- The values that occur in several parts. -/
def valuesOfAll : List Part → List Nat
  | [] => []
  | p :: ps => values p ++ valuesOfAll ps

/-- The values that occur in a part that may be absent. -/
def valuesOfOption : Option Part → List Nat
  | none => []
  | some p => values p

end

@[simp] theorem valuesOfAll_nil : valuesOfAll [] = [] := rfl

@[simp] theorem valuesOfAll_cons (p : Part) (ps : List Part) :
    valuesOfAll (p :: ps) = p.values ++ valuesOfAll ps := by
  rw [valuesOfAll]

/-- The values of parts one after the other are those of the first and then those of the others. -/
@[simp] theorem valuesOfAll_append (ps qs : List Part) :
    valuesOfAll (ps ++ qs) = valuesOfAll ps ++ valuesOfAll qs := by
  induction ps with
  | nil => rfl
  | cons p ps ih => rw [List.cons_append, valuesOfAll_cons, valuesOfAll_cons, ih, List.append_assoc]

@[simp] theorem values_instruction (mnemonic : String) (condition : Option Condition)
    (operands : List Part) :
    (instruction mnemonic condition operands).values = valuesOfAll operands := by
  rw [values]

@[simp] theorem values_plain (mnemonic : String) (operands : List Part) :
    (plain mnemonic operands).values = valuesOfAll operands := by
  rw [plain, values]

/-- The values in a memory operand are those of its components, in the order base, index and offset.
-/
@[simp] theorem values_memory (a : Address Part) :
    (memory a).values
      = valuesOfOption a.base ++ valuesOfOption a.index ++ valuesOfOption a.offset := by
  obtain ⟨base, index, scale, offset⟩ := a
  rw [values]

@[simp] theorem valuesOfOption_none : valuesOfOption none = [] := rfl

@[simp] theorem valuesOfOption_some (p : Part) : valuesOfOption (some p) = p.values := by
  rw [valuesOfOption]

/-- A half of an operand has the values of the operand, since a half of a value names the same value
and other operands name none. -/
theorem values_slice? {p q : Part} {half : Half} (h : p.slice? half = some q) :
    q.values = p.values := by
  revert h
  fun_cases slice? half p
  all_goals
    intro h
    first
      | cases h
      | obtain ⟨narrow, -, rfl⟩ := Option.map_eq_some_iff.1 h
        rfl

theorem values_of_isConstant {p : Part} (h : p.isConstant = true) : p.values = [] := by
  cases p <;> first | rfl | cases h

end Part

/-! ## The values of nodes -/

namespace Block

/-- A node yields a value. -/
def Yields (b : Block) (id : NodeId) (v : Nat) : Prop :=
  ∃ n, b.node? id = some n ∧ n.value? = some v

/-- No two nodes yield the same value. -/
def DistinctValues (b : Block) : Prop := ∀ x y v, b.Yields x v → b.Yields y v → x = y

variable {b : Block} {id : NodeId} {p : Part}

/-- A node yields at most one value. -/
theorem Yields.unique {v w : Nat} (h : b.Yields id v) (h' : b.Yields id w) : v = w := by
  obtain ⟨n, hn, hv⟩ := h
  obtain ⟨n', hn', hw⟩ := h'
  rw [hn, Option.some.injEq] at hn'
  subst hn'
  rw [hv, Option.some.injEq] at hw
  exact hw

/-- The value that a node yields, if it does. -/
def yielded? (b : Block) (id : NodeId) : Option Nat := (b.node? id).bind Node.value?

theorem yields_iff {v : Nat} : b.Yields id v ↔ b.yielded? id = some v := by
  rw [yielded?, Option.bind_eq_some_iff]
  exact Iff.rfl

instance (v : Nat) : Decidable (b.Yields id v) := decidable_of_iff _ yields_iff.symm

/-- Whether values are distinct can be checked on the nodes of the block, which are finitely many;
positions outside yield nothing. -/
theorem distinctValues_of_check (h : ∀ x < b.size, ∀ y < b.size, b.yielded? x = b.yielded? y →
    b.yielded? x = none ∨ x = y) : b.DistinctValues := by
  intro x y v hx hy
  have hsize : ∀ {k}, b.Yields k v → k < b.size := by
    rintro k ⟨n, hn, -⟩
    exact node?_isSome_iff.1 ⟨n, hn⟩
  have heq := (yields_iff.1 hx).trans (yields_iff.1 hy).symm
  rcases h x (hsize hx) y (hsize hy) heq with hnone | hxy
  · rw [yields_iff.1 hx] at hnone
    cases hnone
  · exact hxy

/-- The operand of a node is the value it yields, whole. Its width is the one that the block records
for the value. -/
theorem valueOf?_eq_some (h : b.valueOf? id = some p) :
    ∃ v ty, p = .value v ty none ∧ b.Yields id v := by
  rw [valueOf?] at h
  split at h
  · rename_i n hn
    split at h
    · rename_i v hv
      obtain ⟨ty, -, rfl⟩ := Option.map_eq_some_iff.1 h
      exact ⟨v, ty, rfl, n, hn, hv⟩
    · cases h
  · cases h

/-- The operand of a node has the value that the node yields, and no other. What occurs in an
instruction can be traced to nodes in this way. -/
theorem mem_values_of_valueOf? (h : b.valueOf? id = some p) (v : Nat) :
    v ∈ p.values ↔ b.Yields id v := by
  obtain ⟨w, ty, rfl, hw⟩ := valueOf?_eq_some h
  have hvalues : (Part.value w ty none).values = [w] := rfl
  rw [hvalues, List.mem_singleton]
  constructor
  · rintro rfl
    exact hw
  · intro hv
    exact hv.unique hw

end Block

end TileSelect
