import TileSelect.Proofs.Match.Exactness
import TileSelect.Proofs.Pattern.References
/-!
References back find what they refer to.

The scope of a shape says which identifiers come before a place in it. Matching takes the same way
through the shape, so wherever it arrives, the record has an entry for everything in scope there:
an attempt that succeeds enters what its shape puts into scope, and nothing that is entered is
lost. Where an order of operands is given up for the other, matching goes back to the record
before, and to the scope before.

What is *evaluated* on the way is more than what a match consists of: attempts that fail later on
and orders that are given up evaluate parts too. `Shape.Evaluates` lists them all.

When a match is complete, each identifier is found in one of two places, and the part that
introduced it says in which.
-/

set_option autoImplicit false

namespace TileSelect

/-! ## Records and scopes -/

namespace Match

/-- The record has an entry for every identifier in scope. -/
def Resolves (r : Match) (scope : List String) : Prop :=
  ∀ i ∈ scope, ∃ id, r.resolve? i = some id

variable {r : Match} {scope : List String}

theorem Resolves.start (p : Pattern) (id : NodeId) : (Match.start p id).Resolves [] :=
  fun _ hi => absurd hi List.not_mem_nil

/-- Capturing a node puts the identifier into scope, and leaves all others there, whatever they
resolved to before. -/
theorem Resolves.bind (h : r.Resolves scope) (ident : Option String) (id : NodeId) :
    (r.bind ident id).Resolves (scope ++ ident.toList) := by
  cases ident with
  | none =>
    rw [Option.toList_none, List.append_nil]
    exact h
  | some j =>
    intro i hi
    by_cases hij : i = j
    · subst hij
      exact exists_resolve?_of_bound (Keyed.mem_of_get? (Keyed.get?_insert_self i id r.bindings))
    · -- Another identifier resolves to what it did before.
      have hold : i ∈ scope := by simpa [hij] using hi
      have hsame : SameAt r (r.bind (some j) id) i :=
        sameAt_bind fun heq => hij (Option.some.inj heq).symm
      rw [hsame.resolve?]
      exact h i hold

/-- Alternatives put the identifier of the group into scope: it resolves to the root of the first of
them, and there is a first one because a group with none would not have matched. -/
theorem Resolves.addAlternatives (h : r.Resolves scope) (ident : String) {ms : List Match}
    (hne : ms ≠ []) : (r.addAlternatives ident ms).Resolves (scope ++ [ident]) := by
  intro i hi
  by_cases hij : i = ident
  · subst hij
    obtain ⟨first, rest, rfl⟩ := List.exists_cons_of_ne_nil hne
    have hget : Keyed.get? i (r.addAlternatives i (first :: rest)).submatches
        = some (first :: rest) := Keyed.get?_insert_self i _ r.submatches
    exact ⟨first.root, by rw [resolve?, hget]⟩
  · -- Another identifier resolves to what it did before.
    have hold : i ∈ scope := by simpa [hij] using hi
    have hsame : SameAt r (r.addAlternatives ident ms) i :=
      ⟨Keyed.get?_insert_of_ne hij ms r.submatches, rfl⟩
    rw [hsame.resolve?]
    exact h i hold

end Match

namespace Shape

variable {b : Block} {inc : Inclusion}

/-- Arguments enter what they put into scope one after the other, each with what those before it
entered. Compiled patterns have references to the left only. -/
theorem attemptAll_resolves {ss : List Shape}
    (ih : ∀ s ∈ ss, ∀ scope scope' id r r', scope? scope s = some scope' →
      attempt b inc s id r = .ok ⟨true, r'⟩ → r.Resolves scope → r'.Resolves scope') :
    ∀ scope scope' ids r r', ss.length = ids.length → scopeAll? scope ss = some scope' →
      attemptAll b inc ss ids r = .ok ⟨true, r'⟩ → r.Resolves scope → r'.Resolves scope' := by
  induction ss with
  | nil =>
    intro scope scope' ids r r' _ hscope h hr
    cases hscope
    cases h
    exact hr
  | cons s ss ihss =>
    intro scope scope' ids r r' hlen hscope h hr
    cases ids with
    | nil => cases hlen
    | cons id ids =>
      obtain ⟨scope₁, hs, hss⟩ := scopeAll?_cons_inv hscope
      obtain ⟨r₁, hfirst, hrest⟩ := attemptAll_cons_inv h
      have hr₁ := ih s List.mem_cons_self scope scope₁ id r r₁ hs hfirst hr
      exact ihss (fun a ha => ih a (List.mem_cons_of_mem s ha)) scope₁ scope' ids r₁ r'
        (Nat.succ.inj hlen) hss hrest hr₁

/-- **A successful attempt enters what its shape puts into scope.** The scope is what the compiler
computes when it checks references, so this is where the check of a pattern meets its matching. -/
theorem attempt_resolves (s : Shape) : ∀ scope scope' id r r', scope? scope s = some scope' →
    attempt b inc s id r = .ok ⟨true, r'⟩ → r.Resolves scope → r'.Resolves scope' := by
  induction s using Shape.induction with
  | node ident ty op args ih =>
    intro scope scope' id r r' hscope h hr
    obtain ⟨inner, hinner, rfl⟩ := scope?_node_inv hscope
    obtain ⟨n, operands, r₁, -, -, -, hlen, horder, hall, rfl⟩ := attempt_node_inv h
    have hlen' : args.length = operands.length := by
      rcases horder with rfl | ⟨-, -, rfl⟩
      · exact hlen.symm
      · rw [List.length_reverse, hlen]
    have hr₁ := attemptAll_resolves ih scope inner operands r r₁ hlen' hinner hall hr
    -- The capture of the operation comes after its arguments, in the record as in the scope.
    exact Match.Resolves.bind (r := r₁.cover id) hr₁ ident id
  | producer ident ty =>
    intro scope scope' id r r' hscope h hr
    cases hscope
    obtain ⟨-, -, rfl⟩ := attempt_producer_inv h
    exact hr.bind ident id
  | constant ident ty value =>
    intro scope scope' id r r' hscope h hr
    cases hscope
    obtain ⟨-, -, rfl⟩ := attempt_constant_inv h
    exact hr.bind ident id
  | inclusion ident group =>
    intro scope scope' id r r' hscope h hr
    cases hscope
    obtain ⟨-, ms, -, hne, rfl⟩ := attempt_inclusion_inv h
    exact hr.addAlternatives ident hne
  | backreference ident =>
    intro scope scope' id r r' hscope h hr
    obtain ⟨-, -, rfl⟩ := attempt_backreference_inv h
    rw [scope?] at hscope
    split at hscope <;> cases hscope
    exact hr

/-! ## What is evaluated -/

mutual

/-- While a shape is matched at a node from a record, a part of it is matched at a node from a
record. The attempts need not succeed, neither that of the part nor that of the whole. -/
inductive Evaluates (b : Block) (inc : Inclusion) :
    Shape → NodeId → Match → Shape → NodeId → Match → Prop
  | here (s : Shape) (id : NodeId) (r : Match) : Evaluates b inc s id r s id r
  | inOrder {ident : Option String} {ty : Option ValueType} {op : Operation} {args : List Shape}
      {id id' : NodeId} {r r' : Match} {s' : Shape} {n : Node} (found : b.node? id = some n)
      (fits : b.hasType id ty = true ∧ n.op = op ∧ n.inputs.length = args.length)
      (inner : EvaluatesAll b inc args n.inputs r s' id' r') :
      Evaluates b inc (.node ident ty op args) id r s' id' r'
  /-- The second order is tried where the first has failed, from the record before. -/
  | exchanged {ident : Option String} {ty : Option ValueType} {op : Operation} {args : List Shape}
      {id id' : NodeId} {r r₁ r' : Match} {s' : Shape} {n : Node} (found : b.node? id = some n)
      (fits : b.hasType id ty = true ∧ n.op = op ∧ n.inputs.length = args.length)
      (commutes : op.isCommutative = true ∧ args.length = 2)
      (failed : attemptAll b inc args n.inputs r = .ok ⟨false, r₁⟩)
      (inner : EvaluatesAll b inc args n.inputs.reverse r s' id' r') :
      Evaluates b inc (.node ident ty op args) id r s' id' r'

/-- The same for several shapes at several nodes, each from the record the one before left. -/
inductive EvaluatesAll (b : Block) (inc : Inclusion) :
    List Shape → List NodeId → Match → Shape → NodeId → Match → Prop
  | first {s s' : Shape} {id id' : NodeId} {r r' : Match} (ss : List Shape) (ids : List NodeId)
      (inner : Evaluates b inc s id r s' id' r') :
      EvaluatesAll b inc (s :: ss) (id :: ids) r s' id' r'
  | later {s s' : Shape} {ss : List Shape} {id id' : NodeId} {ids : List NodeId}
      {r r₁ r' : Match} (matched : attempt b inc s id r = .ok ⟨true, r₁⟩)
      (inner : EvaluatesAll b inc ss ids r₁ s' id' r') :
      EvaluatesAll b inc (s :: ss) (id :: ids) r s' id' r'

end

/-- Arguments that all matched were all evaluated, with everything inside them. The induction is on
the list of arguments with the number of the argument moving along. -/
theorem evaluatesAll_of_at? {s' a : Shape} {pos : Position} (hpos : a.at? pos = some s')
    {ss : List Shape} (ih : ∀ s ∈ ss, ∀ id r r₁, attempt b inc s id r = .ok ⟨true, r₁⟩ →
      ∀ pos s', s.at? pos = some s' → ∃ id' r', Evaluates b inc s id r s' id' r') :
    ∀ (k : Nat) ids r r₁, ss[k]? = some a → ss.length = ids.length →
      attemptAll b inc ss ids r = .ok ⟨true, r₁⟩ →
      ∃ id' r', EvaluatesAll b inc ss ids r s' id' r' := by
  induction ss with
  | nil =>
    intro k ids r r₁ hk _ _
    cases hk
  | cons s ss ihss =>
    intro k ids r r₁ hk hlen h
    cases ids with
    | nil => cases hlen
    | cons id ids =>
      obtain ⟨r₂, hfirst, hrest⟩ := attemptAll_cons_inv h
      -- The part stands in the first argument, or in one of the others, which came after it.
      cases k with
      | zero =>
        rw [List.getElem?_cons_zero, Option.some.injEq] at hk
        subst hk
        obtain ⟨id', r', hinner⟩ := ih s List.mem_cons_self id r r₂ hfirst pos s' hpos
        exact ⟨id', r', .first ss ids hinner⟩
      | succ k =>
        rw [List.getElem?_cons_succ] at hk
        obtain ⟨id', r', hinner⟩ := ihss (fun a ha => ih a (List.mem_cons_of_mem s ha)) k ids r₂ r₁
          hk (Nat.succ.inj hlen) hrest
        exact ⟨id', r', .later hfirst hinner⟩

/-- An attempt that succeeds has evaluated every part of its shape. The other direction does not
hold: a part may have been evaluated in an order of the operands that was given up. -/
theorem evaluates_of_at? (s : Shape) : ∀ id r r₁, attempt b inc s id r = .ok ⟨true, r₁⟩ →
    ∀ pos s', s.at? pos = some s' → ∃ id' r', Evaluates b inc s id r s' id' r' := by
  induction s using Shape.induction with
  | node ident ty op args ih =>
    intro id r r₁ h pos s' hpos
    cases pos with
    | nil =>
      rw [at?_nil, Option.some.injEq] at hpos
      subst hpos
      exact ⟨id, r, .here _ id r⟩
    | cons k pos =>
      obtain ⟨a, ha, hpos⟩ := (at?_node_cons ..).1 hpos
      obtain ⟨n, r₂, hty, hn, hop, hlen, -, hfirst | ⟨hcomm, htwo, ⟨r₃, hfailed⟩, hsecond⟩⟩ :=
        attempt_node_orders h
      · obtain ⟨id', r', hinner⟩ :=
          evaluatesAll_of_at? hpos ih k n.inputs r r₂ ha hlen.symm hfirst
        exact ⟨id', r', .inOrder hn ⟨hty, hop, hlen⟩ hinner⟩
      · -- The other order succeeded, after the first one was tried and failed.
        have hlen' : args.length = n.inputs.reverse.length := by rw [List.length_reverse, hlen]
        obtain ⟨id', r', hinner⟩ :=
          evaluatesAll_of_at? hpos ih k n.inputs.reverse r r₂ ha hlen' hsecond
        exact ⟨id', r', .exchanged hn ⟨hty, hop, hlen⟩ ⟨hcomm, htwo⟩ hfailed hinner⟩
  | producer | constant | inclusion | backreference =>
    intro id r r₁ _ pos s' hpos
    cases pos with
    | nil =>
      rw [at?_nil, Option.some.injEq] at hpos
      subst hpos
      exact ⟨id, r, .here _ id r⟩
    | cons => cases hpos

/-- In arguments that are evaluated one after the other, a reference back finds what the arguments
before it have put into scope. -/
theorem resolves_of_evaluatesAll {ident : String} {ss : List Shape}
    (ih : ∀ s ∈ ss, ∀ scope scope' id id' r r', scope? scope s = some scope' → r.Resolves scope →
      Evaluates b inc s id r (.backreference ident) id' r' → ∃ k, r'.resolve? ident = some k) :
    ∀ scope scope' ids id' r r', scopeAll? scope ss = some scope' → r.Resolves scope →
      EvaluatesAll b inc ss ids r (.backreference ident) id' r' →
      ∃ k, r'.resolve? ident = some k := by
  induction ss with
  | nil =>
    intro scope scope' ids id' r r' _ _ h
    cases h
  | cons s ss ihss =>
    intro scope scope' ids id' r r' hscope hr h
    obtain ⟨scope₁, hs, hss⟩ := scopeAll?_cons_inv hscope
    cases h with
    | first _ _ inner => exact ih s List.mem_cons_self scope scope₁ _ id' r r' hs hr inner
    -- The reference is in a later argument, so the first one has matched and entered what it
    -- introduces.
    | later matched inner =>
      have hr₁ := attempt_resolves s scope scope₁ _ r _ hs matched hr
      exact ihss (fun a ha => ih a (List.mem_cons_of_mem s ha)) scope₁ scope' _ id' _ r' hss hr₁
        inner

/-- **A reference back that is evaluated has something to refer to.** In either order of the
operands: both start from the record and the scope before the arguments, and the arguments come in
one order, so the check of the compiler does not depend on the order of the operands. -/
theorem resolves_of_evaluates {ident : String} (s : Shape) : ∀ scope scope' id id' r r',
    scope? scope s = some scope' → r.Resolves scope →
    Evaluates b inc s id r (.backreference ident) id' r' → ∃ k, r'.resolve? ident = some k := by
  induction s using Shape.induction with
  | node ident' ty op args ih =>
    intro scope scope' id id' r r' hscope hr h
    obtain ⟨inner, hinner, -⟩ := scope?_node_inv hscope
    cases h with
    | inOrder _ _ hargs => exact resolves_of_evaluatesAll ih scope inner _ id' r r' hinner hr hargs
    | exchanged _ _ _ _ hargs =>
      exact resolves_of_evaluatesAll ih scope inner _ id' r r' hinner hr hargs
  | producer | constant | inclusion =>
    intro scope scope' id id' r r' _ _ h
    cases h
  | backreference ident' =>
    intro scope scope' id id' r r' hscope hr h
    cases h
    rw [scope?] at hscope
    split at hscope
    · rename_i hmem
      exact hr ident hmem
    · cases hscope

end Shape

/-! ## What a match binds -/

namespace Match

/-- The identifier is bound to a node, and has no alternatives. -/
def Captures (m : Match) (i : String) : Prop :=
  (∃ k, Keyed.get? i m.bindings = some k) ∧ Keyed.get? i m.submatches = none

/-- The identifier has alternatives, all at one node, and is not bound. -/
def Includes (m : Match) (i : String) : Prop :=
  Keyed.get? i m.bindings = none
    ∧ ∃ ms k, Keyed.get? i m.submatches = some ms ∧ ms ≠ [] ∧ ∀ m' ∈ ms, m'.root = k

end Match

section Placed

variable {b : Block} {inc : Inclusion} {id : NodeId} {p : Pattern} {m : Match}
  {e : Shape.Embedding} (he : Shape.Placed b inc p.root id (.start p id) m e)
  (hnd : p.root.idents.Nodup)
include he hnd

/-- An identifier that captures a node is bound in the match, and names no group, because
identifiers are introduced once. -/
theorem Shape.Placed.captures {s : Shape} {i : String} (hs : s ∈ p.root.subshapes)
    (hi : s.captured? = some i) : m.Captures i := by
  obtain ⟨pos, hpos⟩ := exists_at?_of_mem_subshapes hs
  refine ⟨Keyed.exists_get?_of_mem (he.bindings.2 ⟨pos, s, hpos, hi, rfl⟩), ?_⟩
  rw [Option.eq_none_iff_forall_ne_some]
  intro ms hms
  -- Alternatives would have to come from another position with the same identifier.
  obtain ⟨pos', g, hpos', -⟩ := he.submatches.1 (Keyed.mem_of_get? hms)
  obtain ⟨-, rfl⟩ := introduced_once hnd hpos (ident?_eq_some.2 (.inl hi)) hpos' rfl
  cases hi

/-- An identifier of a group has alternatives in the match, all of them at one node, and is not
bound. The node is the one that the group lies on. -/
theorem Shape.Placed.includes (hinc : inc.Rooted) {i g : String}
    (hs : .inclusion i g ∈ p.root.subshapes) : m.Includes i := by
  obtain ⟨pos, hpos⟩ := exists_at?_of_mem_subshapes hs
  obtain ⟨-, ms, hms, hne⟩ := he.lies pos _ hpos
  constructor
  · -- Bound it would be introduced at two positions, as a capture and as a group.
    rw [Option.eq_none_iff_forall_ne_some]
    intro k hk
    obtain ⟨pos', s', hpos', hi, -⟩ := he.bindings.1 (Keyed.mem_of_get? hk)
    obtain ⟨-, rfl⟩ := introduced_once hnd hpos rfl hpos' (ident?_eq_some.2 (.inl hi))
    cases hi
  · obtain ⟨ms', hget⟩ := Keyed.exists_get?_of_mem (he.submatches.2 ⟨pos, g, hpos, hms⟩)
    obtain ⟨pos', g', hpos', hms'⟩ := he.submatches.1 (Keyed.mem_of_get? hget)
    obtain ⟨rfl, hsame⟩ := introduced_once hnd hpos rfl hpos' rfl
    cases hsame
    rw [hms] at hms'
    cases hms'
    exact ⟨ms, e pos, hget, hne, hinc g (e pos) ms hms⟩

end Placed

/-- The match binds what the pattern introduces: captured nodes one way, groups the other. -/
structure Match.BindsAll (m : Match) (p : Pattern) : Prop where
  captured : ∀ s ∈ p.root.subshapes, ∀ i, s.captured? = some i → m.Captures i
  included : ∀ i g, .inclusion i g ∈ p.root.subshapes → m.Includes i

/-- Every identifier of the pattern is bound or has alternatives. -/
theorem Match.BindsAll.captures_or_includes {m : Match} {p : Pattern} (h : m.BindsAll p)
    {i : String} (hi : i ∈ p.root.idents) : m.Captures i ∨ m.Includes i := by
  obtain ⟨s, hs, hi⟩ := List.mem_filterMap.1 hi
  rcases Shape.ident?_eq_some.1 hi with hcaptured | ⟨g, rfl⟩
  · exact .inl (h.captured s hs i hcaptured)
  · exact .inr (h.included i g hs)

/-- **A match binds every identifier, in one place.** Captures and groups never share a name, so
what a name in a template means is settled by the pattern alone. -/
theorem Pattern.bindsAll_of_matchWith {b : Block} {inc : Inclusion} {id : NodeId} {p : Pattern}
    {m : Match} (h : p.matchWith b inc id = .ok (some m)) (hnd : p.root.idents.Nodup)
    (hinc : inc.Rooted) : m.BindsAll p := by
  obtain ⟨e, he⟩ := matchWith_placed h hnd
  exact ⟨fun s hs i hi => he.captures hnd hs hi, fun i g hs => he.includes hnd hinc hs⟩

end TileSelect
