import TileSelect.Proofs.Match.Depth
import TileSelect.Proofs.Match.Termination
import TileSelect.Proofs.Pattern.ReadBack
/-!
Matching with more patterns.

Patterns are put behind the patterns of a document, and none of them is in a group of the document.
The document's patterns then match as they did: they only include groups of the document, since the
compiler takes a name for a group only where the document has one, and these groups have the
alternatives they had.

One thing does change. The bound on nesting counts groups, so there are more layers, and a match
that came out of the larger tables might have needed the additional ones. It did not: what any
number of layers answers, the layers that are used answer too (`Tables.matchAt_of_alternatives`). So
where matching ends with more patterns it ended before, with the same matches.
-/

set_option autoImplicit false

namespace TileSelect

/-! ## Groups that patterns bring along -/

/-- Every group that one of the patterns includes is the group of one of them. -/
def Pattern.IncludedPresent (ps : List Pattern) : Prop :=
  ∀ p ∈ ps, ∀ g ∈ p.root.includedGroups, g ∈ ps.map fun q => q.id.group

namespace Definition

variable {groups : List String} {group : String}

mutual

/-- Names of groups that resolve are known. A compiled shape therefore includes only groups that
have at least one pattern. -/
theorem Resolves.known_of_mem : ∀ {s : Shape} {scope scope' : Scope}, Resolves groups scope s scope' →
    ∀ ident, .inclusion ident group ∈ s.subshapes → group ∈ groups
  | _, _, _, .node _ _ _ _ arguments _, ident, h => by
    rw [Shape.subshapes, List.mem_cons] at h
    rcases h with h | h
    · cases h
    · exact arguments.known_of_mem ident h
  | _, _, _, .inclusion known _, ident, h => by
    cases List.mem_singleton.1 h
    exact known
  | _, _, _, .producer .., ident, h => by simp [Shape.subshapes] at h
  | _, _, _, .constant .., ident, h => by simp [Shape.subshapes] at h
  | _, _, _, .backreference .., ident, h => by simp [Shape.subshapes] at h

theorem ResolvesAll.known_of_mem : ∀ {ss : List Shape} {scope scope' : Scope},
    ResolvesAll groups scope ss scope' →
    ∀ ident, .inclusion ident group ∈ Shape.subshapesList ss → group ∈ groups
  | _, _, _, .nil _, ident, h => by simp [Shape.subshapesList] at h
  | _, _, _, .cons head tail, ident, h => by
    rw [Shape.subshapesList, List.mem_append] at h
    rcases h with h | h
    · exact head.known_of_mem ident h
    · exact tail.known_of_mem ident h

end

/-- Numbering the alternatives of groups does not change which group each of them belongs to. -/
theorem map_group_number (seen : List String) (l : List (String × Conversion)) :
    (number seen l).map (fun alternative => alternative.1.group) = l.map Prod.fst := by
  induction l generalizing seen with
  | nil => rfl
  | cons first rest ih =>
    obtain ⟨name, c⟩ := first
    rw [number, List.map_cons, List.map_cons, ih]

end Definition

/-- The patterns of a document have the groups of its alternatives, in the same order. -/
theorem Document.groups_of_patterns {d : Document} {ps : List Pattern} (h : d.patterns = .ok ps) :
    ps.map (fun p => p.id.group) = d.alternatives.map Prod.fst := by
  have hids := congrArg (List.map PatternId.group) (ids_of_patterns h)
  rw [List.map_map, List.map_map] at hids
  exact hids.trans (Definition.map_group_number [] d.alternatives)

/-- No group of a document is without alternatives, since the parser reads at least one before it
looks for the end. -/
theorem Document.ne_nil_of_parse {source : List Char} {d : Document}
    (h : Document.parse source = .ok d) {g : Group} (hg : g ∈ d.groups) : g.conversions ≠ [] := by
  obtain ⟨-, hwritten⟩ := Document.parse_eq_ok_iff.1 h
  obtain ⟨before, ts, after, -, hgroup⟩ := (Has.group hg).written hwritten
  cases hgroup with
  | mk name s t u body =>
    cases body with
    | mk head tail => exact List.cons_ne_nil _ _

/-- The patterns of a text are those of the document that it parses to. -/
theorem patternsOf?_eq_some {text : List Char} {ps : List Pattern} :
    patternsOf? text = some ps ↔ ∃ d, Document.parse text = .ok d ∧ d.patterns = .ok ps := by
  unfold patternsOf?
  cases Document.parse text with
  | error errors => simp
  | ok d => cases hd : d.patterns <;> simp [hd, Except.toOption]

/-- **Compiled patterns include no group that is not among them.** The compiler refuses unknown
groups, and a group that is known has an alternative, which has become a pattern. -/
theorem Pattern.includedPresent_of_patternsOf? {text : List Char} {ps : List Pattern}
    (h : patternsOf? text = some ps) : IncludedPresent ps := by
  obtain ⟨d, hparse, hpatterns⟩ := patternsOf?_eq_some.1 h
  intro p hp g hg
  obtain ⟨ident, hident⟩ := Shape.mem_includedGroups.1 hg
  obtain ⟨-, -, -, -, scope, -, hresolves⟩ := Document.exists_reads_of_mem hpatterns hp
  obtain ⟨written, hwritten, rfl⟩ := List.mem_map.1 (hresolves.known_of_mem ident hident)
  obtain ⟨c, hc⟩ := List.exists_mem_of_ne_nil _ (Document.ne_nil_of_parse hparse hwritten)
  rw [Document.groups_of_patterns hpatterns]
  have halternative : (written.name, c) ∈ d.alternatives :=
    List.mem_flatMap.2 ⟨written, hwritten, List.mem_map_of_mem hc⟩
  exact List.mem_map_of_mem halternative

/-- Whether a group is there does not depend on the order of the patterns. -/
theorem Pattern.IncludedPresent.perm {ps qs : List Pattern} (h : IncludedPresent ps)
    (hperm : qs.Perm ps) : IncludedPresent qs := by
  intro p hp g hg
  exact (hperm.map _).mem_iff.2 (h p (hperm.mem_iff.1 hp) g hg)

/-! ## Matches -/

/-- Patterns are put behind others that bring along all groups they include, and none is added to a
group of theirs. -/
structure Pattern.Extends (ps qs : List Pattern) : Prop where
  included : IncludedPresent ps
  apart : ∀ q ∈ qs, q.id.group ∉ ps.map fun p => p.id.group

/-- A filtering map of fewer members finds fewer results, in the same order. The functions may
differ too, as long as the one for fewer members answers like the other. -/
theorem exists_filterMapM_sublist {ε α β : Type} {f g : α → Except ε (Option β)} {l l' : List α}
    {r' : List β} (hl : l.Sublist l') (hfg : ∀ a ∈ l, ∀ o, g a = .ok o → f a = .ok o)
    (h : l'.filterMapM g = .ok r') : ∃ r, l.filterMapM f = .ok r ∧ r.Sublist r' := by
  induction hl generalizing r' with
  | slnil => exact ⟨[], rfl, List.nil_sublist r'⟩
  -- The first member is one that is left out, and so are its results.
  | cons a _ ih =>
    rw [List.filterMapM_cons, bind_eq_ok] at h
    obtain ⟨o, -, h⟩ := h
    cases o with
    | none => exact ih hfg h
    | some y =>
      obtain ⟨rest', hrest', h⟩ := bind_eq_ok.1 h
      rw [pure_eq_ok] at h
      subst h
      obtain ⟨r, hr, hsub⟩ := ih hfg hrest'
      exact ⟨r, hr, hsub.cons y⟩
  | cons_cons a _ ih =>
    have hothers : ∀ x ∈ _, ∀ o, g x = .ok o → f x = .ok o :=
      fun x hx => hfg x (List.mem_cons_of_mem a hx)
    rw [List.filterMapM_cons, bind_eq_ok] at h
    obtain ⟨o, ho, h⟩ := h
    rw [List.filterMapM_cons, hfg a List.mem_cons_self o ho, ok_bind]
    cases o with
    | none => exact ih hothers h
    | some y =>
      obtain ⟨rest', hrest', h⟩ := bind_eq_ok.1 h
      rw [pure_eq_ok] at h
      subst h
      obtain ⟨r, hr, hsub⟩ := ih hothers hrest'
      exact ⟨y :: r, by rw [hr]; rfl, hsub.cons_cons y⟩

namespace Tables

variable {ps qs : List Pattern} {b : Block} {id : NodeId} {p : Pattern}

/-- A group that is there has the alternatives it had, because nothing is added to it: the new
patterns are of other groups. -/
theorem group_append (h : Pattern.Extends ps qs) {g : String}
    (hg : g ∈ ps.map fun p => p.id.group) :
    (ofPatterns (ps ++ qs)).group g = (ofPatterns ps).group g := by
  have hnone : qs.filter (fun q => decide (some q.id.group = some g)) = [] := by
    refine List.filter_eq_nil_iff.2 fun q hq hgroup => h.apart q hq ?_
    rw [Option.some.inj (of_decide_eq_true hgroup)]
    exact hg
  rw [group, group, ofPatterns, ofPatterns, Index.get_ofList, Index.get_ofList, List.filter_append,
    hnone, List.append_nil]

/-- What a pattern asks for is a group that is there, so all that it leads to is there as well. -/
theorem mem_groups_of_asks (h : Pattern.IncludedPresent ps) (hp : p ∈ ps) {g : String} {k : NodeId}
    (hasks : p.root.Asks b id g k) : g ∈ ps.map fun p => p.id.group := by
  obtain ⟨-, pos, ident, hpos, -⟩ := hasks
  exact h p hp g (Shape.mem_includedGroups.2 ⟨ident, Shape.mem_subshapes_of_at? hpos⟩)

/-- **Groups that are there match as they did**, in every layer. The induction is on the layers; a
pattern asks only for groups that are there, so no other group is ever looked at. -/
theorem alternatives_append (h : Pattern.Extends ps qs) (n : Nat) {g : String}
    (hg : g ∈ ps.map fun p => p.id.group) (id : NodeId) :
    (ofPatterns (ps ++ qs)).alternatives b n g id = (ofPatterns ps).alternatives b n g id := by
  induction n generalizing g id with
  | zero => rfl
  | succ n ih =>
    rw [alternatives, alternatives]
    dsimp only
    rw [group_append h hg]
    refine filterMapM_congr fun p hp => p.matchWith_congr id fun g' k hasks => ?_
    exact ih (mem_groups_of_asks h.included (mem_group_ofPatterns.1 hp).1 hasks) k

theorem matchWith_append (h : Pattern.Extends ps qs) (n : Nat) (hp : p ∈ ps) :
    p.matchWith b ((ofPatterns (ps ++ qs)).alternatives b n) id
      = p.matchWith b ((ofPatterns ps).alternatives b n) id :=
  p.matchWith_congr id fun _ k hasks =>
    alternatives_append h n (mem_groups_of_asks h.included hp hasks) k

/-- **A match that ends with more patterns ended before, in the same way.** The bound on the nesting
depends on the number of patterns, so the two runs have different bounds; neither of them is ever
used up. -/
theorem matchAt_of_append (h : Pattern.Extends ps qs) (hp : p ∈ ps) {o : Option Match}
    (hmatch : (ofPatterns (ps ++ qs)).matchAt b id p = .ok o) :
    (ofPatterns ps).matchAt b id p = .ok o := by
  refine matchAt_of_alternatives (n := (ofPatterns (ps ++ qs)).inclusionDepth b) ?_
  rw [← matchWith_append h _ hp]
  exact hmatch

end Tables

end TileSelect
