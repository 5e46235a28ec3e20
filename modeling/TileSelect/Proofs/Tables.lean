import TileSelect.Proofs.Faults
import TileSelect.Tables
/-!
What the indexes hold.

Tables are only ever asked two things: for the alternatives of a group and for the candidates at
a node. Both answers are described here by the patterns that the tables were made of, so that
nothing later has to look at an index. A pattern file is a text that is known in full; what is to
be known about its patterns can therefore be checked by compiling it.
-/

set_option autoImplicit false

namespace TileSelect

/-- The patterns of a text, if it makes any. -/
def patternsOf? (text : List Char) : Option (List Pattern) :=
  match Document.parse text with
  | .error _ => none
  | .ok document => document.patterns.toOption

namespace Tables

/-- A check that the patterns of a text pass says something about the tables of the text. The text
is given as its characters, so that the check can be evaluated. -/
theorem ofSource_of_check {s : String} {text : List Char} {check : List Pattern → Bool}
    (h : s = String.ofList text) (hcheck : (patternsOf? text).any check = true) :
    ∃ ps, ofSource s = .ok (.ofPatterns ps) ∧ check ps = true := by
  rw [Option.any_eq_true] at hcheck
  obtain ⟨ps, hps, hcheck⟩ := hcheck
  refine ⟨ps, ?_, hcheck⟩
  unfold patternsOf? at hps
  rw [ofSource, h, String.toList_ofList]
  generalize Document.parse text = outcome at hps ⊢
  cases outcome with
  | error e => cases hps
  | ok document =>
    dsimp only at hps ⊢
    generalize document.patterns = patterns at hps ⊢
    cases patterns with
    | error e => cases hps
    | ok qs =>
      cases hps
      rfl

variable {ps : List Pattern} {p : Pattern}

/-- The alternatives of a group are the patterns with its name. -/
theorem mem_group_ofPatterns {g : String} :
    p ∈ (ofPatterns ps).group g ↔ p ∈ ps ∧ p.id.group = g := by
  rw [group, ofPatterns, Index.get_ofList, List.mem_filter]
  simp

/-- **The tables hold the patterns they were made of**, and those of a group in their order. -/
theorem patterns_ofPatterns (ps : List Pattern) :
    (ofPatterns ps).patterns.Perm ps
      ∧ ∀ g, (ofPatterns ps).patterns.filter (fun p => decide (p.id.group = g))
          = ps.filter fun p => decide (p.id.group = g) :=
  Index.items_ofList (fun p : Pattern => p.id.group) ps

/-- The patterns of the tables are those that they were made of. -/
theorem mem_patterns_ofPatterns : p ∈ (ofPatterns ps).patterns ↔ p ∈ ps :=
  (patterns_ofPatterns ps).1.mem_iff

/-- A pattern that is kept under the operation at its top can stand alone, and is not kept under any
other operation. -/
theorem candidate_of_rootKey? {op : Operation} (h : p.rootKey? = some op) :
    p.isStandalone = true ∧ p.root.rootOp? = some op := by
  rw [Pattern.rootKey?] at h
  split at h
  · cases h
  · rw [Pattern.candidateOp?] at h
    split at h
    · rename_i hstandalone
      exact ⟨hstandalone, h⟩
    · cases h

/-- A pattern that is kept under the operation that it stores can stand alone, too, and it is a
store. -/
theorem candidate_of_storeKey? {op : Operation} (h : p.storeKey? = some op) :
    p.isStandalone = true ∧ p.root.rootOp? = some .store := by
  rw [Pattern.storeKey?] at h
  split at h
  · rename_i hstandalone
    refine ⟨hstandalone, ?_⟩
    -- A stored operation is only looked for below a store.
    revert h
    cases p.root with
    | node ident ty op' args => cases op' <;> simp [Shape.storedOp?, Shape.rootOp?]
    | producer | constant | inclusion | backreference => simp [Shape.storedOp?]
  · cases h

/-- A candidate has the operation of the node at its top and can stand alone. Both indexes have been
built so, and nothing else is looked at. -/
theorem mem_candidates_ofPatterns {op : Operation} {stored : Option Operation}
    (h : p ∈ (ofPatterns ps).candidates op stored) :
    p ∈ ps ∧ p.isStandalone = true ∧ p.root.rootOp? = some op := by
  unfold candidates at h
  rw [List.mem_append] at h
  rcases h with h | h
  · rw [ofPatterns, Index.get_ofList, List.mem_filter, decide_eq_true_iff] at h
    obtain ⟨hp, hkey⟩ := h
    exact ⟨hp, candidate_of_rootKey? hkey⟩
  · split at h
    · rw [ofPatterns, Index.get_ofList, List.mem_filter, decide_eq_true_iff] at h
      obtain ⟨hp, hkey⟩ := h
      exact ⟨hp, candidate_of_storeKey? hkey⟩
    · cases h

end Tables

/-! ## Ordinals -/

/-- The alternatives of a group are numbered in order, from the count of those seen before. Those of
other groups in between do not count. -/
theorem Definition.ordinal_number {seen : List String} {l : List (String × Conversion)}
    {g : String} {i : Nat} {name : PatternId}
    (h : (((number seen l).map Prod.fst).filter (fun name => decide (name.group = g)))[i]?
      = some name) : name = ⟨g, seen.count g + i⟩ := by
  induction l generalizing seen i with
  | nil => cases h
  | cons alternative l ih =>
    obtain ⟨group, c⟩ := alternative
    rw [number, List.map_cons, List.filter_cons] at h
    by_cases hg : group = g
    · rw [if_pos (by simpa using hg)] at h
      cases i with
      | zero =>
        rw [List.getElem?_cons_zero, Option.some.injEq] at h
        rw [← h, hg, Nat.add_zero]
      | succ i =>
        rw [List.getElem?_cons_succ] at h
        rw [ih h, hg, List.count_cons_self, Nat.add_right_comm, Nat.add_assoc]
    · rw [if_neg (by simpa using hg)] at h
      rw [ih h, List.count_cons_of_ne hg]

/-- Patterns are named as their alternatives have been numbered, since compiling keeps their order.
-/
theorem Document.ids_of_patterns {d : Document} {ps : List Pattern} (h : d.patterns = .ok ps) :
    ps.map Pattern.id = (Definition.number [] d.alternatives).map Prod.fst := by
  refine map_of_mapM (fun alternative _ p hp => ?_) h
  rw [Definition.pattern] at hp
  split at hp
  · cases hp
    rfl
  · cases hp

/-- In compiled tables a pattern is named by its group and its place there. Alternatives of a group
are numbered as they come, also where the group is defined in several places. -/
theorem Tables.id_of_ofSource {source : String} {t : Tables}
    (h : Tables.ofSource source = .ok t) {g : String} {i : Nat} {p : Pattern}
    (hp : (t.group g)[i]? = some p) : p.id = ⟨g, i⟩ := by
  rw [Tables.ofSource] at h
  split at h
  · cases h
  · rename_i document _
    split at h
    · cases h
    · rename_i ps hps
      cases h
      have hgroup : ((Tables.ofPatterns ps).group g).map Pattern.id
          = ((Definition.number [] document.alternatives).map Prod.fst).filter
              fun name => decide (name.group = g) := by
        rw [Tables.group, Tables.ofPatterns, Index.get_ofList, ← Document.ids_of_patterns hps,
          List.filter_map]
        simp [Function.comp_def]
      have hid : (((Tables.ofPatterns ps).group g).map Pattern.id)[i]? = some p.id := by
        rw [List.getElem?_map, hp]
        rfl
      rw [hgroup] at hid
      have hname := Definition.ordinal_number hid
      rw [hname, List.count_nil, Nat.zero_add]

end TileSelect
