import TileSelect.Block.Build
import TileSelect.Proofs.Match.Completeness
import TileSelect.Proofs.Tables
/-!
Matching is exact.

This module puts the pieces together and states them without the matcher's own vocabulary. A
pattern *lies at* a node by an embedding of its positions, if every position is satisfied where
it lies: groups by the records of their alternatives, references by the node of the position
that introduced the identifier. A record *is* an embedding, if it binds, includes, covers and
reads exactly what the positions of the pattern say.

A match is such an embedding, whatever the tables and the block are like. If moreover no group
includes itself at its root and the operands form no cycle, there is always an answer, and where
a pattern with settled references lies, the answer is a match.
-/

set_option autoImplicit false

namespace TileSelect

/-! ## Lying at a node -/

/-- Some alternative of the group matches at the node. -/
def Tables.MatchesAt (t : Tables) (b : Block) (g : String) (id : NodeId) : Prop :=
  ∃ q ∈ t.group g, ∃ m, t.matchAt b id q = .ok (some m)

namespace Shape

/-- A position that lies on the node introduces the identifier. -/
def Introduces (s : Shape) (e : Embedding) (i : String) (id : NodeId) : Prop :=
  s.Somewhere e fun s' k => s'.ident? = some i ∧ k = id

/-- The identifier that the top of a shape captures a node under; groups are not captured. -/
def captured? : Shape → Option String
  | .node ident _ _ _ | .producer ident _ | .constant ident _ _ => ident
  | .inclusion .. | .backreference .. => none

/-- Whether the pattern computes the node that the top of a shape lies on. -/
def isComputed : Shape → Bool
  | .node .. | .constant .. => true
  | .producer .. | .inclusion .. | .backreference .. => false

/-- Whether the pattern reads the node that the top of a shape lies on. -/
def isRead : Shape → Bool
  | .producer .. => true
  | .node .. | .constant .. | .inclusion .. | .backreference .. => false

end Shape

/-- A pattern lies at a node by an embedding of its positions. -/
structure Pattern.LiesAt (t : Tables) (b : Block) (p : Pattern) (id : NodeId)
    (e : Shape.Embedding) : Prop where
  top : e [] = id
  lies : p.root.Everywhere e (Shape.LiesOn b (t.MatchesAt b) (p.root.Introduces e))

/-- The record says of the pattern what the embedding says, and nothing else. -/
structure Match.IsRecordOf (m : Match) (t : Tables) (b : Block) (p : Pattern)
    (e : Shape.Embedding) : Prop where
  pattern : m.pattern = p
  root : m.root = e []
  /-- Every identifier stands for the node of the position that introduces it. -/
  resolved : ∀ i k, m.resolve? i = some k ↔ p.root.Introduces e i k
  bindings : ∀ i k, (i, k) ∈ m.bindings
    ↔ p.root.Somewhere e fun s' id => s'.captured? = some i ∧ id = k
  /-- An identifier of a group has the records of all alternatives that match, in order. -/
  submatches : ∀ i ms, (i, ms) ∈ m.submatches
    ↔ ∃ pos g, p.root.at? pos = some (.inclusion i g)
        ∧ (t.group g).filterMapM (t.matchAt b (e pos)) = .ok ms
  covered : ∀ k, k ∈ m.covered ↔ p.root.Somewhere e fun s' id => s'.isComputed = true ∧ id = k
  inputs : ∀ k, k ∈ m.inputs ↔ p.root.Somewhere e fun s' id => s'.isRead = true ∧ id = k

/-! ## What the positions contribute -/

namespace Shape

variable {inc : Inclusion} {s : Shape} {id k : NodeId} {i : String}

/-- A position enters a capture exactly if its top captures the node that it lies on. -/
theorem records_bound : s.Records inc id (.bound i k) ↔ s.captured? = some i ∧ id = k := by
  cases s <;> simp [Records, captured?, eq_comm]

/-- A position enters a covered node exactly if the pattern computes the node there. -/
theorem records_covered : s.Records inc id (.covered k) ↔ s.isComputed = true ∧ id = k := by
  cases s <;> simp [Records, isComputed, eq_comm]

/-- A position enters an input exactly if the pattern reads the node there. -/
theorem records_read : s.Records inc id (.read k) ↔ s.isRead = true ∧ id = k := by
  cases s <;> simp [Records, isRead, eq_comm]

/-- A position enters alternatives exactly if a group stands there; they are the ones found at its
node, and they are entered under the name of the inclusion. -/
theorem records_included {ms : List Match} :
    s.Records inc id (.included i ms) ↔ ∃ g, s = .inclusion i g ∧ inc g id = .ok ms := by
  cases s with
  | node | producer | constant | backreference => simp [Records]
  | inclusion ident group =>
    simp only [Records, Entry.included.injEq, Shape.inclusion.injEq]
    constructor
    · rintro ⟨ms', hms, rfl, rfl⟩
      exact ⟨group, ⟨rfl, rfl⟩, hms⟩
    · rintro ⟨g, ⟨rfl, rfl⟩, hms⟩
      exact ⟨ms, hms, rfl, rfl⟩

/-- Introduced is what is captured and what names a group. -/
theorem ident?_eq_some : s.ident? = some i ↔ s.captured? = some i ∨ ∃ g, s = .inclusion i g := by
  cases s with
  | node | producer | constant | backreference => simp [ident?, captured?]
  | inclusion ident group => simp [ident?, captured?]

end Shape

/-! ## The record of a match -/

section Record

variable {b : Block} {inc : Inclusion} {id : NodeId} {p : Pattern} {m : Match}
  {e : Shape.Embedding} (he : Shape.Placed b inc p.root id (.start p id) m e)
include he

/-- The captures of a match are those of its positions. -/
theorem Shape.Placed.bindings {i : String} {k : NodeId} : (i, k) ∈ m.bindings
    ↔ p.root.Somewhere e fun s' id => s'.captured? = some i ∧ id = k := by
  have h := he.holds_iff (.bound i k)
  simp only [Shape.records_bound] at h
  exact h

/-- A match covers the nodes on which its operations and constants lie. -/
theorem Shape.Placed.covered {k : NodeId} : k ∈ m.covered
    ↔ p.root.Somewhere e fun s' id => s'.isComputed = true ∧ id = k := by
  have h := he.holds_iff (.covered k)
  simp only [Shape.records_covered] at h
  exact h

theorem Shape.Placed.inputs {k : NodeId} : k ∈ m.inputs
    ↔ p.root.Somewhere e fun s' id => s'.isRead = true ∧ id = k := by
  have h := he.holds_iff (.read k)
  simp only [Shape.records_read] at h
  exact h

/-- The alternatives in a match are those of the groups at its positions, as found at their nodes.
Nothing else is ever entered there. -/
theorem Shape.Placed.submatches {i : String} {ms : List Match} : (i, ms) ∈ m.submatches
    ↔ ∃ pos g, p.root.at? pos = some (.inclusion i g) ∧ inc g (e pos) = .ok ms := by
  have h := he.holds_iff (.included i ms)
  simp only [Shape.records_included] at h
  refine Iff.trans h ⟨?_, ?_⟩
  · rintro ⟨pos, s', hpos, g, rfl, hms⟩
    exact ⟨pos, g, hpos, hms⟩
  · rintro ⟨pos, g, hpos, hms⟩
    exact ⟨pos, _, hpos, g, rfl, hms⟩

/-- What the record refers to is the node of the position that introduced it. For a group this needs
that alternatives are records of the node at which they were looked for. -/
theorem Shape.Placed.introduces (hinc : inc.Rooted) {i : String} {k : NodeId}
    (h : m.Refers i k) : p.root.Introduces e i k := by
  rcases h with h | ⟨first, rest, h, hroot⟩
  · obtain ⟨pos, s', hpos, hi, hk⟩ := he.bindings.1 h
    exact ⟨pos, s', hpos, Shape.ident?_eq_some.2 (.inl hi), hk⟩
  · obtain ⟨pos, g, hpos, hms⟩ := he.submatches.1 h
    exact ⟨pos, _, hpos, rfl, (hinc g _ _ hms first List.mem_cons_self).symm.trans hroot⟩

end Record

namespace Tables

variable {t : Tables} {b : Block} {id : NodeId} {p : Pattern} {m : Match} {e : Shape.Embedding}

/-- In tables without endless inclusions, over a block without cycles, inclusions answer at every
node. -/
theorem answers (ht : t.RootAcyclic) (hb : b.OperandsAcyclic) (hr : b.OperandsInRange) :
    Shape.Answers b (t.included b) where
  total _ _ hid := included_total ht hb hr hid
  rooted := rooted_alternatives _

/-- A group that is admitted at a node has an alternative that matches there. -/
theorem matchesAt_of_admits {g : String} (h : Shape.Admits (t.included b) g id) :
    t.MatchesAt b g id := by
  obtain ⟨ms, hms, hne⟩ := h
  obtain ⟨m, hm⟩ := List.exists_mem_of_ne_nil ms hne
  obtain ⟨q, hq, hqm⟩ := (mem_of_filterMapM (included_fix hms) m).1 hm
  exact ⟨q, hq, m, hqm⟩

/-- A group with an alternative that matches at a node is admitted there, once it has an answer at
all. -/
theorem admits_of_matchesAt {g : String} {ms : List Match} (hms : t.included b g id = .ok ms)
    (h : t.MatchesAt b g id) : Shape.Admits (t.included b) g id := by
  obtain ⟨q, hq, m, hm⟩ := h
  exact ⟨ms, hms, List.ne_nil_of_mem ((mem_of_filterMapM (included_fix hms) m).2 ⟨q, hq, hm⟩)⟩

section Record

variable (he : Shape.Placed b (t.included b) p.root id (.start p id) m e)
  (hnd : p.root.idents.Nodup)
include he hnd

/-- An identifier resolves to the node of its position: to nothing else, as the record says nothing
else, and to something, as the position says so. -/
theorem resolve?_of_placed {i : String} {k : NodeId} :
    m.resolve? i = some k ↔ p.root.Introduces e i k := by
  have hintroduces : ∀ x, m.resolve? i = some x → p.root.Introduces e i x := fun x hx =>
    he.introduces (rooted_alternatives _) (Match.refers_of_resolve? hx)
  refine ⟨hintroduces k, fun hintro => ?_⟩
  -- An identifier is introduced at one position, so there is one node for it.
  have hunique : ∀ x, m.resolve? i = some x → x = k := by
    intro x hx
    obtain ⟨pos, s₁, hpos, hi, rfl⟩ := hintroduces x hx
    obtain ⟨pos', s₂, hpos', hi', rfl⟩ := hintro
    rw [Shape.position_unique hnd hpos hi hpos' hi']
  obtain ⟨x, hx⟩ : ∃ x, m.resolve? i = some x := by
    obtain ⟨pos, s', hpos, hi, hk⟩ := hintro
    -- The position captures the node, or it is one of a group, whose alternatives are not empty.
    rcases Shape.ident?_eq_some.1 hi with hcap | ⟨g, rfl⟩
    · have hmem := he.bindings.2 ⟨pos, s', hpos, hcap, hk⟩
      exact Match.exists_resolve?_of_bound hmem
    · obtain ⟨hsize, ms, hms, hne⟩ := he.lies pos _ hpos
      have hmem := he.submatches.2 ⟨pos, g, hpos, hms⟩
      refine Match.exists_resolve?_of_included hmem fun ms' hms' => ?_
      obtain ⟨pos', g', hpos', hms'⟩ := he.submatches.1 hms'
      obtain rfl := Shape.position_unique hnd hpos rfl hpos' rfl
      rw [hpos, Option.some.injEq] at hpos'
      cases hpos'
      rw [hms] at hms'
      cases hms'
      exact hne
  rw [hx, hunique x hx]

/-- **The record of a placed shape is that of its embedding.** What is left to compare are the
alternatives, which are recorded as they were found and stated as they match. -/
theorem isRecordOf_of_placed (hhead : m.pattern = p ∧ m.root = id) : m.IsRecordOf t b p e where
  pattern := hhead.1
  root := hhead.2.trans he.top.symm
  resolved _ _ := resolve?_of_placed he hnd
  bindings _ _ := he.bindings
  submatches i ms := by
    rw [he.submatches]
    constructor
    · -- Either way the alternatives at the node are those of all layers, by `included_fix`.
      rintro ⟨pos, g, hpos, hms⟩
      exact ⟨pos, g, hpos, included_fix hms⟩
    · rintro ⟨pos, g, hpos, hms⟩
      obtain ⟨-, ms', hms', -⟩ := he.lies pos _ hpos
      have heq := included_fix hms'
      rw [hms] at heq
      cases heq
      exact ⟨pos, g, hpos, hms'⟩
  covered _ := he.covered
  inputs _ := he.inputs

end Record

/-! ## Exactness -/

/-- **Matching is exact.** A match of a pattern with distinct identifiers is an embedding of its
positions, and the record is that embedding. Over a block without cycles, with tables in which
no group includes itself at its root, matching has an outcome at every node, and a pattern whose
references are settled matches at every node at which it lies. -/
theorem matchAt_exact (hnd : p.root.idents.Nodup) :
    (∀ m, t.matchAt b id p = .ok (some m) → ∃ e, p.LiesAt t b id e ∧ m.IsRecordOf t b p e)
      ∧ (t.RootAcyclic → b.OperandsAcyclic → b.OperandsInRange → id < b.size →
          (∃ found, t.matchAt b id p = .ok found)
            ∧ (p.root.Settled → (∃ e, p.LiesAt t b id e) →
                ∃ m, t.matchAt b id p = .ok (some m))) := by
  refine ⟨fun m h => ?_, fun ht hb hr hid => ⟨matchAt_total ht hb hr hid p, ?_⟩⟩
  · -- Sound: a match is an embedding, and its record is that embedding.
    obtain ⟨e, he⟩ := Pattern.matchWith_placed h hnd
    refine ⟨e, ⟨he.top, ?_⟩, isRecordOf_of_placed he hnd (Pattern.matchWith_head h)⟩
    exact he.lies.imp fun s k child => Shape.LiesOn.imp (fun _ _ _ => matchesAt_of_admits)
      fun _ _ => he.introduces (rooted_alternatives _)
  · -- Complete: a settled pattern that lies at the node is matched there, if by another embedding.
    rintro hsettled ⟨e, htop, hlies⟩
    obtain ⟨known, hknown⟩ := Option.isSome_iff_exists.1 hsettled
    have hinc := answers ht hb hr
    have hunique : ∀ i x y, p.root.Introduces e i x → p.root.Introduces e i y → x = y := by
      rintro i x y ⟨pos, s₁, hpos, hi, rfl⟩ ⟨pos', s₂, hpos', hi', rfl⟩
      rw [Shape.position_unique hnd hpos hi hpos' hi']
    -- Groups that match are groups that were found, since inclusions answer at every node.
    have hadmits : p.root.Everywhere e
        (Shape.LiesOn b (Shape.Admits (t.included b)) (p.root.Introduces e)) :=
      hlies.imp fun s k child => Shape.LiesOn.imp
        (fun g x hx h => (hinc.total g x hx).elim fun ms hms => admits_of_matchesAt hms h)
        fun _ _ h => h
    obtain ⟨r, hr', -⟩ := Shape.attempt_complete hr hinc hunique p.root e [] known (.start p id)
      hadmits (fun i k h => h) hknown hnd
      (fun i _ => ⟨List.not_mem_nil, rfl⟩) fun i hi => absurd hi List.not_mem_nil
    rw [htop] at hr'
    exact ⟨r, by rw [matchAt, Pattern.matchWith, hr']; rfl⟩

/-- The sum of a sum and its first operand. -/
def repeating : Pattern :=
  ⟨⟨"repeat", 0⟩, .node none none .add [.node none none .add
    [.producer (some "a") none, .producer (some "b") none], .backreference "a"], []⟩

/-- The sum of two arguments, and the second of them again. -/
def repeated : Block := Build.finish ⟨"repeating", "f", "entry"⟩ do
  let x ← Build.arg 0 .i32
  let y ← Build.arg 1 .i32
  let sum ← Build.op .add .i32 [x, y]
  Build.op .add .i32 [sum, y]

-- References have to be settled. The pattern would lie here with the inner sum swapped, but the
-- first order in which that sum matches is kept, and `a` is the other argument then.
example : ¬ repeating.root.Settled
    ∧ (ofPatterns [repeating]).matchAt repeated 3 repeating = .ok none :=
  ⟨by decide, rfl⟩

/-- The sum of a source with itself, where a source is a value or a number. -/
def doubling : List Pattern :=
  [⟨⟨"number", 0⟩, .constant (some "n") none none, []⟩,
   ⟨⟨"source", 0⟩, .producer (some "v") none, []⟩,
   ⟨⟨"source", 1⟩, .inclusion "n" "number", []⟩,
   ⟨⟨"double", 0⟩, .node none none .add [.inclusion "a" "source", .backreference "a"], []⟩]

/-- An argument, added to itself. -/
def doubled : Block := Build.finish ⟨"doubling", "f", "entry"⟩ do
  let x ← Build.arg 0 .i32
  Build.op .add .i32 [x, x]

/-- No group of `doubling` leads back to itself at the same node, so matching ends wherever it is
tried. -/
theorem rootAcyclic_doubling : (ofPatterns doubling).RootAcyclic := by
  have hstep : ∀ g g', (ofPatterns doubling).RootIncludes g g' → g = "source" ∧ g' = "number" := by
    rintro g g' ⟨p, hp, ident, hroot⟩
    obtain ⟨hmem, rfl⟩ := mem_group_ofPatterns.1 hp
    simp only [doubling, List.mem_cons, List.not_mem_nil, or_false] at hmem
    rcases hmem with rfl | rfl | rfl | rfl <;> cases hroot
    exact ⟨rfl, rfl⟩
  intro g h
  obtain ⟨y, hgy, -⟩ := Relation.TransGen.head'_iff.1 h
  obtain ⟨x, -, hxg⟩ := Relation.TransGen.tail'_iff.1 h
  exact absurd ((hstep g y hgy).1.symm.trans (hstep x g hxg).2) (by decide)

/-- Doubling lies at the sum, both operands being the argument, and it is matched there. The
reference back is what makes the two operands one. -/
theorem matchAt_exact_doubled :
    ∃ p ∈ doubling, p.root.idents.Nodup ∧ p.root.Settled
      ∧ (ofPatterns doubling).RootAcyclic ∧ doubled.OperandsAcyclic ∧ doubled.OperandsInRange
      ∧ (∃ e, p.LiesAt (ofPatterns doubling) doubled 1 e)
      ∧ ∃ m, (ofPatterns doubling).matchAt doubled 1 p = .ok (some m)
          ∧ ∃ e, m.IsRecordOf (ofPatterns doubling) doubled p e := by
  have hordered : doubled.Ordered := by decide
  have hacyclic := hordered.acyclic.operands
  have hrange := hordered.inRange.operands
  have hsettled : doubling[3].root.Settled := by decide
  -- Both halves of the theorem, at the sum.
  obtain ⟨hsound, hcomplete⟩ :=
    @matchAt_exact (ofPatterns doubling) doubled 1 doubling[3] (by decide)
  obtain ⟨e, hlies, -⟩ := hsound _ rfl
  obtain ⟨m, hm⟩ :=
    (hcomplete rootAcyclic_doubling hacyclic hrange (by decide)).2 hsettled ⟨e, hlies⟩
  obtain ⟨e', -, hrecord⟩ := hsound m hm
  exact ⟨doubling[3], by simp [doubling], by decide, hsettled, rootAcyclic_doubling, hacyclic,
    hrange, ⟨e, hlies⟩, m, hm, e', hrecord⟩

end Tables

end TileSelect
