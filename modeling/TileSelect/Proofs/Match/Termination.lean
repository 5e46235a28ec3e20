import TileSelect.Block.Build
import TileSelect.Proofs.Match.Entry
import TileSelect.Proofs.Match.Layers
import TileSelect.Tables.X86
/-!
Matching ends.

Matching a shape at a node asks for the shapes of its operands, and at an inclusion for every
alternative of the group, at the same node. So along a chain of calls neither the shape nor the
node gets smaller all the time: an operand makes the shape smaller, and an inclusion starts again
with a shape of another pattern. What does not come back is a group at a node. That has two
sources. If the operands form no cycle and no group includes itself at its root, then each entry of
a group has gone on along operands, or stayed at the node and gone on to another group. If no group
includes itself at all, wherever in its alternatives, then each entry has gone on to another group,
and the block does not matter.

Either way the pairs of a group and a node that lie ahead get fewer with every entry. That bounds
the chains of calls, and it bounds how deep inclusions nest, so the bound that matching is given is
not reached: its answer is the one that every greater bound gives, and it is a match, no match, or
the fault of looking up an operand that is no node.
-/

set_option autoImplicit false

namespace TileSelect

open Relation

/-! ## What a shape asks for -/

/-- An answer whose only fault is that something is no node of the block. -/
def Block.FaultsOutside {α : Type} (b : Block) (r : Except Fault α) : Prop :=
  ∀ e, r = .error e → ∃ k, ¬ k < b.size ∧ e = .missingNode k

namespace Block

variable {α β : Type} {b : Block}

theorem faultsOutside_ok (a : α) : b.FaultsOutside (.ok a) := by
  intro e h
  cases h

/-- Steps in sequence that can only find a node missing: the first or the second finds one missing,
if any does. -/
theorem FaultsOutside.bind {x : Except Fault α} {f : α → Except Fault β}
    (hx : b.FaultsOutside x) (hf : ∀ a, x = .ok a → b.FaultsOutside (f a)) :
    b.FaultsOutside (x >>= f) := by
  intro e h
  rcases bind_eq_error.1 h with h | ⟨a, ha, h⟩
  · exact hx e h
  · exact hf a ha e h

/-- Looking up a node fails only if it is none of the block. All other faults of the matcher come
from this one. -/
theorem faultsOutside_node (id : NodeId) : b.FaultsOutside (b.node id) := by
  intro e h
  unfold node at h
  cases hnode : b.node? id with
  | none =>
    rw [hnode] at h
    cases h
    refine ⟨id, fun hid => ?_, rfl⟩
    obtain ⟨n, hn⟩ := node?_isSome_iff.2 hid
    rw [hnode] at hn
    cases hn
  | some n =>
    rw [hnode] at h
    cases h

end Block

namespace Shape

variable {b : Block} {f g : Inclusion}

/-- Matching a shape at a node may ask for a group at another node. -/
def Asks (b : Block) (s : Shape) (id : NodeId) (group : String) (k : NodeId) : Prop :=
  k < b.size ∧ ∃ pos ident, s.at? pos = some (.inclusion ident group) ∧ Below b pos id k

theorem asks_inclusion {ident group : String} {id : NodeId} (h : id < b.size) :
    Asks b (.inclusion ident group) id group id :=
  ⟨h, [], ident, rfl, rfl⟩

/-- What an argument asks for at an operand, the operation asks for. -/
theorem asks_node {ident : Option String} {ty : Option ValueType} {op : Operation}
    {args : List Shape} {a : Shape} {id x k : NodeId} {group : String} (ha : a ∈ args)
    (hx : b.Operand id x) (h : a.Asks b x group k) :
    (node ident ty op args).Asks b id group k := by
  obtain ⟨hk, pos, ident', hpos, hbelow⟩ := h
  obtain ⟨j, hj⟩ := List.mem_iff_getElem?.1 ha
  exact ⟨hk, j :: pos, ident', (at?_node_cons ..).2 ⟨a, hj, hpos⟩, below_cons hx hbelow⟩

/-- Arguments come out the same if each of them does, at every operand and from every record. So two
layers that agree on the inclusions agree on the operation. -/
theorem attemptAll_congr {ss : List Shape} {ids : List NodeId}
    (h : ∀ s ∈ ss, ∀ x ∈ ids, ∀ r, attempt b f s x r = attempt b g s x r) (r : Match) :
    attemptAll b f ss ids r = attemptAll b g ss ids r := by
  induction ss generalizing ids r with
  | nil => rfl
  | cons s ss ih =>
    cases ids with
    | nil => rfl
    | cons x ids =>
      have hrest (r' : Match) : attemptAll b f ss ids r' = attemptAll b g ss ids r' :=
        ih (fun s' hs' y hy => h s' (List.mem_cons_of_mem s hs') y (List.mem_cons_of_mem x hy)) r'
      simp only [attemptAll, h s List.mem_cons_self x List.mem_cons_self, hrest]

/-- **An attempt looks at nothing but what it asks for.** So two inclusions that agree there make no
difference to it, even if neither has an answer. -/
theorem attempt_congr (s : Shape) (id : NodeId) (h : ∀ group k, s.Asks b id group k →
    f group k = g group k) (r : Match) : attempt b f s id r = attempt b g s id r := by
  induction s using Shape.induction generalizing id r with
  | node ident ty op args ih =>
    cases hn : b.node id with
    | error e => simp only [attempt, hn]; rfl
    | ok n =>
      -- For either order of the operands: what an argument asks for at an operand, the operation
      -- asks for here.
      have hinputs (ids : List NodeId) (hids : ∀ x ∈ ids, x ∈ n.inputs) :
          attemptAll b f args ids r = attemptAll b g args ids r := by
        refine attemptAll_congr (fun a ha x hx r' => ih a ha x (fun group k hk => ?_) r') r
        exact h group k (asks_node ha ⟨n, Block.node_eq_ok.1 hn, hids x hx⟩ hk)
      rw [attempt, attempt, hn, ok_bind, ok_bind, hinputs n.inputs fun x hx => hx,
        hinputs n.inputs.reverse fun x hx => List.mem_reverse.1 hx]
  | inclusion ident group =>
    cases hn : b.node id with
    | error e => simp only [attempt, hn]; rfl
    | ok n =>
      have hid : id < b.size := Block.node?_isSome_iff.1 ⟨n, Block.node_eq_ok.1 hn⟩
      rw [attempt, attempt, h group id (asks_inclusion hid)]
  | producer | constant | backreference => rw [attempt, attempt]

/-- Arguments find something missing only if one of them does, and that is a node that an operand
points to. -/
theorem faultsOutside_attemptAll {ss : List Shape} {ids : List NodeId}
    (h : ∀ s ∈ ss, ∀ x ∈ ids, ∀ r, b.FaultsOutside (attempt b f s x r)) (r : Match) :
    b.FaultsOutside (attemptAll b f ss ids r) := by
  induction ss generalizing ids r with
  | nil =>
    rw [attemptAll]
    · exact Block.faultsOutside_ok _
    · simp
  | cons s ss ih =>
    cases ids with
    | nil =>
      rw [attemptAll]
      · exact Block.faultsOutside_ok _
      · simp
    | cons x ids =>
      rw [attemptAll]
      refine (h s List.mem_cons_self x List.mem_cons_self r).bind fun a _ => ?_
      -- The first argument has matched, and the others are tried, or this is the end.
      split
      · exact ih (fun s' hs' y hy =>
          h s' (List.mem_cons_of_mem s hs') y (List.mem_cons_of_mem x hy)) a.record
      · exact Block.faultsOutside_ok a

/-- An attempt finds something missing only if it does so itself, or what it asks for does. There is
no other fault in the matcher, but for running out of layers. -/
theorem faultsOutside_attempt (s : Shape) (id : NodeId) (h : ∀ group k, s.Asks b id group k →
    b.FaultsOutside (f group k)) (r : Match) : b.FaultsOutside (attempt b f s id r) := by
  induction s using Shape.induction generalizing id r with
  | node ident ty op args ih =>
    rw [attempt]
    refine (Block.faultsOutside_node id).bind fun n hn => ?_
    -- For either order of the operands, as they are all looked up in the same way.
    have hinputs (ids : List NodeId) (hids : ∀ x ∈ ids, x ∈ n.inputs) :
        b.FaultsOutside (attemptAll b f args ids r) := by
      refine faultsOutside_attemptAll (fun a ha x hx r' => ih a ha x (fun group k hk => ?_) r') r
      exact h group k (asks_node ha ⟨n, Block.node_eq_ok.1 hn, hids x hx⟩ hk)
    split
    · refine (hinputs n.inputs fun x hx => hx).bind fun first _ => ?_
      split
      · exact Block.faultsOutside_ok _
      · split
        · have hswapped := hinputs n.inputs.reverse fun x hx => List.mem_reverse.1 hx
          refine hswapped.bind fun second _ => ?_
          split
          · exact Block.faultsOutside_ok _
          · exact Block.faultsOutside_ok _
        · exact Block.faultsOutside_ok _
    · exact Block.faultsOutside_ok _
  | inclusion ident group =>
    rw [attempt]
    refine (Block.faultsOutside_node id).bind fun n hn => ?_
    have hid : id < b.size := Block.node?_isSome_iff.1 ⟨n, Block.node_eq_ok.1 hn⟩
    refine (h group id (asks_inclusion hid)).bind fun ms _ => ?_
    split
    · exact Block.faultsOutside_ok _
    · exact Block.faultsOutside_ok _
  | producer | constant | backreference =>
    rw [attempt]
    refine (Block.faultsOutside_node id).bind fun n _ => ?_
    split
    · exact Block.faultsOutside_ok _
    · exact Block.faultsOutside_ok _

/-- The groups that a shape includes, wherever in its tree. -/
def includedGroups (s : Shape) : List String :=
  s.subshapes.filterMap fun part =>
    match part with
    | .inclusion _ group => some group
    | _ => none

/-- The groups that are collected from a shape are those of its subshapes, whatever the names that
they are included under. -/
theorem mem_includedGroups {s : Shape} {group : String} :
    group ∈ s.includedGroups ↔ ∃ ident, .inclusion ident group ∈ s.subshapes := by
  rw [includedGroups, List.mem_filterMap]
  constructor
  · rintro ⟨part, hpart, h⟩
    cases part with
    | inclusion ident group' =>
      cases h
      exact ⟨ident, hpart⟩
    | node | producer | constant | backreference => cases h
  · rintro ⟨ident, hident⟩
    exact ⟨_, hident, rfl⟩

end Shape

namespace Pattern

variable {b : Block} {f g : Inclusion}

/-- Matching a pattern looks at nothing but what its shape asks for at the node. -/
theorem matchWith_congr (p : Pattern) (id : NodeId) (h : ∀ group k, p.root.Asks b id group k →
    f group k = g group k) : p.matchWith b f id = p.matchWith b g id := by
  rw [matchWith, matchWith, Shape.attempt_congr p.root id h]

/-- Matching a pattern finds something missing only if its attempt does. -/
theorem faultsOutside_matchWith (p : Pattern) (id : NodeId) (h : ∀ group k,
    p.root.Asks b id group k → b.FaultsOutside (f group k)) :
    b.FaultsOutside (p.matchWith b f id) :=
  (Shape.faultsOutside_attempt p.root id h _).bind fun _ _ => Block.faultsOutside_ok _

end Pattern

/-! ## Groups that do not come back -/

namespace Tables

variable {t : Tables} {b : Block}

/-- A group has an alternative that includes another group, wherever in its tree. -/
def GroupIncludes (t : Tables) (g g' : String) : Prop :=
  ∃ p ∈ t.group g, ∃ ident, .inclusion ident g' ∈ p.root.subshapes

/-- No group includes itself, directly or through other groups. -/
def InclusionAcyclic (t : Tables) : Prop := ∀ g, ¬ TransGen t.GroupIncludes g g

/-- If no group includes itself then looking for a group never leads back to it, at whatever node.
The block may have cycles here. -/
theorem not_enters_self_of_inclusionAcyclic (ht : t.InclusionAcyclic) (x : String × NodeId) :
    ¬ TransGen (t.Enters b) x x := by
  intro hcycle
  have hstep (x y : String × NodeId) (h : t.Enters b x y) : t.GroupIncludes x.1 y.1 := by
    obtain ⟨p, hp, pos, ident, hpos, -⟩ := h
    exact ⟨p, hp, ident, Shape.mem_subshapes_of_at? hpos⟩
  exact ht x.1 (TransGen.lift Prod.fst hstep x x hcycle)

/-- A group that has a pattern has a name in the tables. -/
theorem mem_groupNames_of_mem_group {g : String} {p : Pattern} (h : p ∈ t.group g) :
    g ∈ t.groupNames := by
  by_contra hg
  rw [group_eq_nil hg] at h
  cases h

/-- What an alternative of a group asks for is entered from the group. -/
theorem enters_of_asks {g g' : String} {id k : NodeId} {p : Pattern} (hp : p ∈ t.group g)
    (h : p.root.Asks b id g' k) : t.Enters b (g, id) (g', k) := by
  obtain ⟨-, pos, ident, hpos, hbelow⟩ := h
  exact ⟨p, hp, pos, ident, hpos, hbelow⟩

/-! ## Chains of calls -/

/-- Matching a shape at a node may call for matching another shape at another node: an argument at
an operand, in whichever order, or an alternative of an included group. -/
inductive Calls (t : Tables) (b : Block) : Shape × NodeId → Shape × NodeId → Prop where
  | operand {ident : Option String} {ty : Option ValueType} {op : Operation} {args : List Shape}
      {a : Shape} {id x : NodeId} (ha : a ∈ args) (hx : b.Operand id x) :
      Calls t b (.node ident ty op args, id) (a, x)
  | alternative {ident g : String} {id : NodeId} {p : Pattern} (hid : id < b.size)
      (hp : p ∈ t.group g) : Calls t b (.inclusion ident g, id) (p.root, id)

/-- Every chain of calls from here ends. -/
def CallsEnd (t : Tables) (b : Block) (s : Shape) (id : NodeId) : Prop :=
  Acc (fun y x => t.Calls b x y) (s, id)

/-- The chains that start with a shape end if those do that start with what it asks for. The
induction is on the shape: within a shape, calls go to its arguments. -/
theorem callsEnd_of_asks (s : Shape) (id : NodeId) (h : ∀ g k, s.Asks b id g k →
    ∀ p ∈ t.group g, t.CallsEnd b p.root k) : t.CallsEnd b s id := by
  induction s using Shape.induction generalizing id with
  | node ident ty op args ih =>
    refine ⟨_, fun y hy => ?_⟩
    cases hy with
    | operand ha hx => exact ih _ ha _ fun g k hk => h g k (Shape.asks_node ha hx hk)
  | inclusion ident group =>
    refine ⟨_, fun y hy => ?_⟩
    cases hy with
    | alternative hid hp => exact h group id (Shape.asks_inclusion hid) _ hp
  | producer | constant | backreference =>
    refine ⟨_, fun y hy => ?_⟩
    cases hy

/-- The induction is on what is ahead of the group at the node, of which there is less after every
group that is entered. -/
theorem callsEnd_group (hself : ∀ x, ¬ TransGen (t.Enters b) x x) (g : String) (id : NodeId) :
    ∀ p ∈ t.group g, t.CallsEnd b p.root id := by
  induction hn : (t.ahead b (g, id)).card using Nat.strong_induction_on generalizing g id with
  | _ n ih =>
    intro p hp
    apply callsEnd_of_asks
    intro g' k hasks p' hp'
    have hlt := card_ahead_lt hself (enters_of_asks hp hasks) (mem_groupNames_of_mem_group hp')
      hasks.1
    exact ih _ (hn ▸ hlt) g' k rfl p' hp'

/-! ## Bounds on nesting -/

/-- So many layers are enough to look for a group at a node. -/
def Enough (t : Tables) (b : Block) (n : Nat) (g : String) (id : NodeId) : Prop :=
  0 < n ∧ (g ∈ t.groupNames → (t.ahead b (g, id)).card + 1 < n)

/-- If so many layers are enough for a group, then one less is enough for what its patterns ask for.
-/
theorem Enough.of_asks (hself : ∀ x, ¬ TransGen (t.Enters b) x x) {n : Nat} {g g' : String}
    {id k : NodeId} (h : t.Enough b (n + 1) g id) {p : Pattern} (hp : p ∈ t.group g)
    (hasks : p.root.Asks b id g' k) : t.Enough b n g' k := by
  have hahead := h.2 (mem_groupNames_of_mem_group hp)
  refine ⟨by omega, fun hg' => ?_⟩
  have hlt := card_ahead_lt hself (enters_of_asks hp hasks) hg' hasks.1
  omega

/-- The layers that the matcher uses are enough for every group at every node, and so are any more.
-/
theorem enough_of_inclusionDepth_le (hself : ∀ x, ¬ TransGen (t.Enters b) x x) {n : Nat}
    (hn : t.inclusionDepth b ≤ n) (g : String) {id : NodeId} (hid : id < b.size) :
    t.Enough b n g id := by
  rw [inclusionDepth] at hn
  refine ⟨by omega, fun hg => ?_⟩
  have hlt := @card_ahead_lt_mul t b hself (g, id) hg hid
  omega

/-- Two layers that are enough answer alike. The induction is on both, as what is asked for needs
one layer less of either. -/
theorem alternatives_stable (hself : ∀ x, ¬ TransGen (t.Enters b) x x) (n m : Nat) (g : String)
    (id : NodeId) (hn : t.Enough b n g id) (hm : t.Enough b m g id) :
    t.alternatives b n g id = t.alternatives b m g id := by
  induction n generalizing m g id with
  | zero => exact absurd hn.1 (Nat.lt_irrefl 0)
  | succ n ih =>
    cases m with
    | zero => exact absurd hm.1 (Nat.lt_irrefl 0)
    | succ m =>
      refine filterMapM_congr fun p hp => p.matchWith_congr id fun g' k hasks => ?_
      exact ih m g' k (hn.of_asks hself hp hasks) (hm.of_asks hself hp hasks)

/-- The bottom layer, which has no answer, is not asked. So running out of layers is none of the
faults, and only a node that is missing is left. -/
theorem faultsOutside_alternatives (hself : ∀ x, ¬ TransGen (t.Enters b) x x) (n : Nat)
    (g : String) (id : NodeId) (hn : t.Enough b n g id) :
    b.FaultsOutside (t.alternatives b n g id) := by
  induction n generalizing g id with
  | zero => exact absurd hn.1 (Nat.lt_irrefl 0)
  | succ n ih =>
    intro e he
    obtain ⟨p, hp, he⟩ := exists_of_filterMapM_error he
    refine p.faultsOutside_matchWith id (fun g' k hasks => ?_) e he
    exact ih g' k (hn.of_asks hself hp hasks)

/-! ## Matching ends -/

/-- Matching a pattern at a node comes to an end. -/
structure Settles (t : Tables) (b : Block) (id : NodeId) (p : Pattern) : Prop where
  /-- No chain of calls goes on for ever. -/
  callsEnd : t.CallsEnd b p.root id
  /-- The answer is a match, no match, or that something looked up is no node. -/
  answer : (∃ m, t.matchAt b id p = .ok (some m)) ∨ t.matchAt b id p = .ok none ∨
    ∃ k, ¬ k < b.size ∧ t.matchAt b id p = .error (.missingNode k)
  /-- Letting inclusions nest deeper does not change the answer. -/
  stable : ∀ n, t.inclusionDepth b ≤ n →
    p.matchWith b (t.alternatives b n) id = t.matchAt b id p

/-- **Matching ends if no group comes back to a node.** All chains of calls end, the answer is a
match, none, or a node that is missing, and any larger number of layers gives the same answer. -/
theorem settles_of_not_enters_self (hself : ∀ x, ¬ TransGen (t.Enters b) x x) (id : NodeId)
    (p : Pattern) : t.Settles b id p where
  callsEnd := callsEnd_of_asks p.root id fun g k _ => callsEnd_group hself g k
  answer := by
    have hfaults : b.FaultsOutside (t.matchAt b id p) :=
      p.faultsOutside_matchWith id fun g k hasks => faultsOutside_alternatives hself _ g k
        (enough_of_inclusionDepth_le hself (Nat.le_refl _) g hasks.1)
    -- Two answers without a fault; and the only fault there is.
    cases hanswer : t.matchAt b id p with
    | ok found =>
      cases found with
      | none => exact .inr (.inl rfl)
      | some m => exact .inl ⟨m, rfl⟩
    | error e =>
      obtain ⟨k, hk, rfl⟩ := hfaults e hanswer
      exact .inr (.inr ⟨k, hk, rfl⟩)
  stable := by
    intro n hn
    refine p.matchWith_congr id fun g k hasks => ?_
    exact alternatives_stable hself _ _ g k (enough_of_inclusionDepth_le hself hn g hasks.1)
      (enough_of_inclusionDepth_le hself (Nat.le_refl _) g hasks.1)

/-! ## The bundled patterns -/

/-- No group includes itself if groups can be numbered so that each includes only groups with
smaller numbers. Along inclusions the number gets smaller, and so does not come back. -/
theorem inclusionAcyclic_of_rank {ps : List Pattern} (rank : String → Nat)
    (h : ∀ p ∈ ps, ∀ g ∈ p.root.includedGroups, rank g < rank p.id.group) :
    (ofPatterns ps).InclusionAcyclic := by
  have hstep (g g' : String) (hincludes : (ofPatterns ps).GroupIncludes g g') :
      rank g' < rank g := by
    obtain ⟨p, hp, ident, hincluded⟩ := hincludes
    obtain ⟨hmem, rfl⟩ := mem_group_ofPatterns.1 hp
    exact h p hmem g' (Shape.mem_includedGroups.2 ⟨ident, hincluded⟩)
  intro g hcycle
  have hlt : TransGen (· > ·) (rank g) (rank g) := TransGen.lift rank hstep g g hcycle
  rw [transGen_eq_self] at hlt
  exact Nat.lt_irrefl _ hlt

/-- Groups of operands come before those of instructions. -/
def x86Rank (g : String) : Nat := if g ∈ ["src", "addr", "index4"] then 0 else 1

set_option maxRecDepth 1000000 in
/-- Compiling the bundled file shows that its groups of instructions include groups of operands,
and those include none. -/
theorem x86_ranked :
    ∃ ps, x86Tables = .ok (.ofPatterns ps)
      ∧ (ps.all fun p => p.root.includedGroups.all fun g =>
          decide (x86Rank g < x86Rank p.id.group)) = true :=
  @ofSource_of_check x86Source _ _ rfl (by decide +kernel)

theorem inclusionAcyclic_x86 : ∃ t, x86Tables = .ok t ∧ t.InclusionAcyclic := by
  obtain ⟨ps, hps, hcheck⟩ := x86_ranked
  simp only [List.all_eq_true, decide_eq_true_iff] at hcheck
  exact ⟨_, hps, inclusionAcyclic_of_rank x86Rank hcheck⟩

/-- **Matching ends** for every pattern at every node, if the operands form no cycle and no group
includes itself at its root, and also, whatever the operands, if no group includes itself at all.
The bundled tables are of the latter kind. -/
theorem matching_settles :
    (∀ (t : Tables) (b : Block), (b.OperandsAcyclic ∧ t.RootAcyclic) ∨ t.InclusionAcyclic →
      ∀ id p, t.Settles b id p) ∧
      ∃ t, x86Tables = .ok t ∧ t.InclusionAcyclic := by
  refine ⟨?_, inclusionAcyclic_x86⟩
  rintro t b (⟨hb, ht⟩ | ht) id p
  · exact settles_of_not_enters_self (not_enters_self ht hb) id p
  · exact settles_of_not_enters_self (not_enters_self_of_inclusionAcyclic ht) id p

/-- A negation of what the group itself matches, or anything. -/
def tower : List Pattern :=
  [⟨⟨"tower", 0⟩, .node none none .neg [.inclusion "x" "tower"], []⟩,
   ⟨⟨"tower", 1⟩, .producer none none, []⟩]

/-- Two negations of an argument. -/
def twiceNegated : Block := Build.finish ⟨"towers", "f", "entry"⟩ do
  let x ← Build.arg 0 .i32
  let y ← Build.op .neg .i32 [x]
  Build.op .neg .i32 [y]

/-- A node that reads itself. -/
def selfNegated : Block where
  place := ⟨"towers", "g", "entry"⟩
  nodes := #[⟨.neg, .value 0, [0], none, none⟩]
  types := [(0, .i32)]

/-- A group that includes itself below its root ends on operands without a cycle, and a negation
of anything ends on a node that reads itself. -/
theorem matching_settles_towers :
    twiceNegated.OperandsAcyclic ∧ (ofPatterns tower).RootAcyclic ∧
      (∀ p ∈ tower, (ofPatterns tower).Settles twiceNegated 2 p) ∧
      (ofPatterns tower.tail).InclusionAcyclic ∧
      ∀ p ∈ tower.tail, (ofPatterns tower.tail).Settles selfNegated 0 p := by
  have hacyclic : twiceNegated.OperandsAcyclic :=
    Block.Acyclic.operands (Block.Ordered.acyclic (by decide))
  have hroots : (ofPatterns tower).RootAcyclic := by
    apply rootAcyclic_of_roots
    simp [tower]
  -- Without its recursive pattern the group includes nothing.
  have hranked : (ofPatterns tower.tail).InclusionAcyclic :=
    inclusionAcyclic_of_rank (fun _ => 0) (by decide)
  refine ⟨hacyclic, hroots, fun p _ => ?_, hranked, fun p _ => ?_⟩
  · exact matching_settles.1 _ _ (.inl ⟨hacyclic, hroots⟩) 2 p
  · exact matching_settles.1 _ _ (.inr hranked) 0 p

end Tables

end TileSelect
