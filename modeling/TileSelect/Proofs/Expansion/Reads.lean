import Mathlib.Data.String.Basic
import TileSelect.Proofs.Asm.Values
import TileSelect.Proofs.Expansion.Choices
import TileSelect.Proofs.Match.Exactness
/-!
What an instantiation was matched to read.

The inputs of an instantiation have been reduced: what it covers is taken out, at every level of
nested groups. For what its instructions read, the nodes before that reduction matter. They are
collected here along the choices: the nodes matched for their value, and the captured constants
that have neither a number nor a symbol and are therefore written as a value too.

The two belong together. The inputs are the nodes read less the nodes covered, however the
reductions were nested, because what a choice covers the whole covers.
-/

set_option autoImplicit false

namespace TileSelect

/-! ## One entry for each name -/

namespace Keyed

variable {α : Type}

/-- Storing adds no name but the one that is stored under. -/
theorem mem_keys_insert {name key : String} {a : α} {entries : List (String × α)}
    (h : key ∈ (insert name a entries).map Prod.fst) :
    key = name ∨ key ∈ entries.map Prod.fst := by
  induction entries with
  | nil => simpa [insert] using h
  | cons entry rest ih => grind [insert]

/-- Storing keeps the names in order. The three cases are those of the comparison with the first
name: in front of it, in its place, or further on. -/
theorem pairwise_insert (name : String) (a : α) {entries : List (String × α)}
    (h : (entries.map Prod.fst).Pairwise (· < ·)) :
    ((insert name a entries).map Prod.fst).Pairwise (· < ·) := by
  induction entries with
  | nil => simp [insert]
  | cons entry rest ih =>
    obtain ⟨key, c⟩ := entry
    rw [List.map_cons, List.pairwise_cons] at h
    rw [insert]
    split
    · rename_i hlt
      rw [List.map_cons, List.map_cons, List.pairwise_cons, List.pairwise_cons]
      refine ⟨fun k hk => ?_, h⟩
      rcases List.mem_cons.1 hk with rfl | hk
      · exact hlt
      · exact lt_trans hlt (h.1 k hk)
    · -- Stored under a name that is there, or further down.
      rename_i hnot
      split
      · rename_i heq
        rw [List.map_cons, List.pairwise_cons, heq]
        exact h
      · rename_i hne
        rw [List.map_cons, List.pairwise_cons]
        refine ⟨fun k hk => ?_, ih h.2⟩
        rcases mem_keys_insert hk with rfl | hk
        · exact lt_of_le_of_ne (not_lt.1 hnot) (Ne.symm hne)
        · exact h.1 k hk

/-- Where every name is stored under once, what is stored is found. Looking up stops at the first
entry of the name, and there is no other. -/
theorem get?_of_mem {name : String} {a : α} {entries : List (String × α)}
    (h : (entries.map Prod.fst).Nodup) (ha : (name, a) ∈ entries) :
    get? name entries = some a := by
  induction entries with
  | nil => cases ha
  | cons entry rest ih =>
    obtain ⟨key, c⟩ := entry
    rw [List.map_cons, List.nodup_cons] at h
    rw [get?]
    rcases List.mem_cons.1 ha with heq | hrest
    · cases heq
      exact if_pos rfl
    · have hne : key ≠ name := by
        rintro rfl
        exact h.1 (List.mem_map.2 ⟨_, hrest, rfl⟩)
      rw [if_neg hne]
      exact ih h.2 hrest

end Keyed

/-- The groups that a match includes are stored in the order of their names. Combinations name their
choices in this order. -/
theorem Pattern.submatches_ascending {b : Block} {inc : Inclusion} {p : Pattern} {id : NodeId}
    {m : Match} (h : p.matchWith b inc id = .ok (some m)) :
    (m.submatches.map Prod.fst).Pairwise (· < ·) := by
  refine Shape.attempt_keeps
    (R := fun r r' => (r.submatches.map Prod.fst).Pairwise (· < ·) →
      (r'.submatches.map Prod.fst).Pairwise (· < ·))
    ⟨fun _ h => h, fun _ _ _ h h' hr => h' (h hr), fun _ _ h => h, fun _ _ h => h⟩ p.root
    (fun _ _ _ _ h => h) (fun i _ r ms => Keyed.pairwise_insert i ms) id (.start p id) m
    (matchWith_eq_some h) ?_
  exact List.Pairwise.nil

/-- The groups that a match includes are stored once each. -/
theorem Pattern.submatches_nodup {b : Block} {inc : Inclusion} {p : Pattern} {id : NodeId}
    {m : Match} (h : p.matchWith b inc id = .ok (some m)) :
    (m.submatches.map Prod.fst).Nodup :=
  (submatches_ascending h).imp fun hlt => ne_of_lt hlt

/-- The choices are named like the groups, in the same order and as often. -/
theorem Match.Chooses.keys {b : Block} {subs : List (String × List Match)}
    {chosen : List (String × Instantiation)} (h : Match.Chooses b subs chosen) :
    chosen.map Prod.fst = subs.map Prod.fst := by
  induction subs generalizing chosen with
  | nil =>
    cases h
    rfl
  | cons sub subs ih =>
    cases h with
    | cons mem first others => rw [List.map_cons, List.map_cons, ih others]

/-! ## Reads -/

/-- Whether a constant has neither a number nor a symbol. -/
def Block.isBare (b : Block) (id : NodeId) : Bool :=
  match b.node? id with
  | some n =>
    match n.imm with
    | some (.int _) | some (.symbol _) => false
    | _ => true
  | none => true

/-- Whether a captured node is a constant that is written as its value. -/
def Match.capturesBare (b : Block) (m : Match) (binding : String × NodeId) : Bool :=
  match m.pattern.lookup? binding.1 with
  | some (.constant ..) => b.isBare binding.2
  | _ => false

/-- The nodes whose values a match reads, whether or not it covers them too. -/
def Match.reads (b : Block) (m : Match) : List NodeId :=
  m.inputs.toList ++ (m.bindings.filter (m.capturesBare b)).map Prod.snd

namespace Instantiation

mutual

/-- The nodes whose values an instantiation reads, those of its choices included. -/
def reads (b : Block) : Instantiation → List NodeId
  | ⟨record, _, _, _, chosen⟩ => record.reads b ++ readsOfAll b chosen

/-- The nodes whose values several choices read. -/
def readsOfAll (b : Block) : List (String × Instantiation) → List NodeId
  | [] => []
  | (_, i) :: rest => reads b i ++ readsOfAll b rest

end

/-- What several choices read is read by one of them. Duplicates do not matter, as sets are made of
these lists. -/
theorem mem_readsOfAll {b : Block} {chosen : List (String × Instantiation)} {x : NodeId} :
    x ∈ readsOfAll b chosen ↔ ∃ choice ∈ chosen, x ∈ choice.2.reads b := by
  induction chosen with
  | nil => simp [readsOfAll]
  | cons choice rest ih =>
    obtain ⟨name, i⟩ := choice
    rw [readsOfAll, List.mem_append, ih]
    simp

/-- An instantiation reads what its match reads and what its choices read. -/
theorem mem_reads {b : Block} {i : Instantiation} {x : NodeId} :
    x ∈ i.reads b ↔ x ∈ i.record.reads b ∨ ∃ choice ∈ i.chosen, x ∈ choice.2.reads b := by
  obtain ⟨record, parts, covered, inputs, chosen⟩ := i
  rw [reads, List.mem_append, mem_readsOfAll]

end Instantiation

/-! ## Reads of a match -/

section Placed

variable {b : Block} {inc : Inclusion} {id : NodeId} {p : Pattern} {m : Match}
  {e : Shape.Embedding} (he : Shape.Placed b inc p.root id (.start p id) m e)
  (hnd : p.root.idents.Nodup) (hpattern : m.pattern = p)
include he hnd hpattern

/-- A match reads where it has a position that matches any value, or a captured constant without a
number. The second kind of node is covered as well, which is why it is not among the inputs. -/
theorem Shape.Placed.mem_reads {x : NodeId} : x ∈ m.reads b ↔ x ∈ m.inputs
    ∨ ∃ pos ident ty value, p.root.at? pos = some (.constant (some ident) ty value)
        ∧ e pos = x ∧ b.isBare x = true := by
  rw [Match.reads, List.mem_append, ← NodeSet.mem_def]
  refine or_congr_right ⟨?_, ?_⟩
  · intro hx
    obtain ⟨⟨ident, k⟩, hfilter, rfl⟩ := List.mem_map.1 hx
    obtain ⟨hbound, hbare⟩ := List.mem_filter.1 hfilter
    obtain ⟨pos, s, hpos, hcaptured, rfl⟩ := he.bindings.1 hbound
    have hident : s.ident? = some ident := Shape.ident?_eq_some.2 (.inl hcaptured)
    rw [Match.capturesBare, hpattern, Pattern.lookup?_of_at? hnd hpos hident] at hbare
    -- Only a constant can be bare, so no other kind of position is meant.
    cases s with
    | constant ident' ty value =>
      obtain rfl : ident' = some ident := hident
      exact ⟨pos, ident, ty, value, hpos, rfl, hbare⟩
    | node | producer | inclusion | backreference => cases hbare
  · rintro ⟨pos, ident, ty, value, hpos, rfl, hbare⟩
    refine List.mem_map.2 ⟨(ident, e pos), List.mem_filter.2 ⟨?_, ?_⟩, rfl⟩
    · exact he.bindings.2 ⟨pos, _, hpos, rfl, rfl⟩
    · rw [Match.capturesBare, hpattern, Pattern.lookup?_of_at? hnd hpos rfl]
      exact hbare

/-- What a match reads and does not cover are its inputs. -/
theorem Shape.Placed.mem_inputs_or_covered {x : NodeId} (hx : x ∈ m.reads b) :
    x ∈ m.inputs ∨ x ∈ m.covered := by
  rcases (he.mem_reads hnd hpattern).1 hx with hx | ⟨pos, ident, ty, value, hpos, rfl, -⟩
  · exact .inl hx
  · exact .inr (he.covered.2 ⟨pos, _, hpos, rfl, rfl⟩)

/-- What is read yields a value. Positions that match values lie on producers, and a constant is
one; a name of anything else is covered and not read. -/
theorem Shape.Placed.yields_of_mem_reads {x : NodeId} (hx : x ∈ m.reads b) :
    ∃ v, b.Yields x v := by
  -- A producer yields its value.
  have hproducer : ∀ {n : Node}, b.node? x = some n → n.isProducer = true → ∃ v, b.Yields x v := by
    intro n hn hprod
    obtain ⟨v, hv⟩ := Option.isSome_iff_exists.1 hprod
    exact ⟨v, n, hn, hv⟩
  rcases (he.mem_reads hnd hpattern).1 hx with hx | ⟨pos, ident, ty, value, hpos, rfl, -⟩
  · obtain ⟨pos, s, hpos, hread, rfl⟩ := he.inputs.1 hx
    cases s with
    | producer ident ty =>
      obtain ⟨-, n, hn, hprod⟩ := he.lies pos _ hpos
      exact hproducer hn hprod
    | node | constant | inclusion | backreference => cases hread
  · obtain ⟨-, n, hn, -, hprod, -⟩ := he.lies pos _ hpos
    exact hproducer hn hprod

end Placed

end TileSelect
