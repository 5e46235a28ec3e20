import TileSelect.Block.Build
import TileSelect.Proofs.Block.Renumbering
import TileSelect.Proofs.Match.Completeness
/-!
What an attempt may do to the record that it is given.

Callers use one record for several attempts and drop it only if they know that it is spoilt, so two
questions matter. What can a failed attempt leave behind? Only an operation whose arguments are
matched in one order hands on the record of a failed argument; all other shapes give the record
back as it was, since a commutative operation starts over from it and a leaf changes nothing before
all its conditions are met (`attempt_failed`). Either way the attempt is a sequence of steps, so the
pattern, the node at the top and the entries of other identifiers stay and the sets of nodes only
grow (`attempt_traces`).

The other question is what an attempt looks at. It looks identifiers up, for references back, and
never at the nodes that are computed or read so far. So the same nodes are added whatever the two
sets were, and the attempt ends alike (`attempt_withNodes`). This is what lets the records of a
pattern be worked out one position after the other.
-/

set_option autoImplicit false

namespace TileSelect

namespace NodeSet

variable {s t : NodeSet} {n : NodeId}

theorem union_insert : s.union (t.insert n) = (s.union t).insert n :=
  ext_mem fun k => by simp [or_left_comm]

theorem union_union {u : NodeSet} : (s.union t).union u = s.union (t.union u) :=
  ext_mem fun k => by simp [or_assoc]

theorem union_empty : s.union empty = s := rfl

end NodeSet

namespace Match

/-- The record with other sets of nodes. -/
def withNodes (r : Match) (covered inputs : NodeSet) : Match := { r with covered, inputs }

variable {r : Match} {c i : NodeSet}

/-- What an identifier resolves to has nothing to do with the sets of nodes. -/
theorem resolve?_withNodes (ident : String) :
    (r.withNodes c i).resolve? ident = r.resolve? ident := rfl

theorem cover_withNodes (id : NodeId) :
    (r.withNodes c i).cover id = (r.cover id).withNodes (c.insert id) i := rfl

theorem read_withNodes (id : NodeId) :
    (r.withNodes c i).read id = (r.read id).withNodes c (i.insert id) := rfl

/-- Adding alternatives leaves the sets of nodes alone; what they cover is joined only later. -/
theorem addAlternatives_withNodes (ident : String) (ms : List Match) :
    (r.withNodes c i).addAlternatives ident ms = (r.addAlternatives ident ms).withNodes c i := rfl

theorem bind_withNodes (ident : Option String) (id : NodeId) :
    (r.withNodes c i).bind ident id = (r.bind ident id).withNodes c i := by
  cases ident <;> rfl

/-- What is computed and read in the first record is so in the second. -/
def Grown (r r' : Match) : Prop :=
  (∀ k, k ∈ r.covered → k ∈ r'.covered) ∧ ∀ k, k ∈ r.inputs → k ∈ r'.inputs

end Match

namespace Shape

variable {b : Block} {inc : Inclusion}

/-- Whether a shape is an operation whose arguments are matched in one order only. -/
def inOneOrder : Shape → Bool
  | .node _ _ op args => !(op.isCommutative && args.length == 2)
  | .producer .. | .constant .. | .inclusion .. | .backreference _ => false

/-! ## Failed attempts -/

/-- **What a failed attempt leaves behind.** The record is as it was, unless the arguments of an
operation were matched in one order and one of them did not. With two orders the record is put back,
before the second is tried and after it. -/
theorem attempt_failed {s : Shape} {id : NodeId} {r r' : Match}
    (h : attempt b inc s id r = .ok ⟨false, r'⟩) :
    r' = r ∨ ∃ ident ty op args n, s = .node ident ty op args ∧ s.inOneOrder = true
      ∧ b.node? id = some n ∧ attemptAll b inc args n.inputs r = .ok ⟨false, r'⟩ := by
  cases s with
  | node ident ty op args =>
    rw [attempt, bind_eq_ok] at h
    obtain ⟨n, hn, h⟩ := h
    rw [Block.node_eq_ok] at hn
    split at h
    · obtain ⟨⟨matched, r₁⟩, hfirst, h⟩ := bind_eq_ok.1 h
      cases matched with
      | true => cases h
      | false =>
        -- The first order has failed; whether there is a second decides what is left behind.
        rw [if_neg Bool.false_ne_true] at h
        split at h
        · obtain ⟨⟨matched, r₂⟩, -, h⟩ := bind_eq_ok.1 h
          cases matched with
          | true => cases h
          | false =>
            cases h
            exact .inl rfl
        · rename_i hfixed
          cases h
          refine .inr ⟨ident, ty, op, args, n, rfl, ?_, hn, hfirst⟩
          rw [inOneOrder, Bool.not_eq_true', Bool.eq_false_iff]
          exact hfixed
    · cases h
      exact .inl rfl
  | inclusion ident group =>
    rw [attempt, bind_eq_ok] at h
    obtain ⟨n, -, h⟩ := h
    obtain ⟨ms, -, h⟩ := bind_eq_ok.1 h
    split at h
    · cases h
      exact .inl rfl
    · cases h
  | producer | constant | backreference =>
    rw [attempt, bind_eq_ok] at h
    obtain ⟨n, -, h⟩ := h
    split at h
    · cases h
    · cases h
      exact .inl rfl

/-- Arguments that do not all match were matched up to the first that fails, which may have left
steps of its own behind. -/
theorem attemptAll_failed {ss : List Shape}
    (ih : ∀ s ∈ ss, ∀ id r r', attempt b inc s id r = .ok ⟨false, r'⟩ →
      Steps b inc s.idents r r') :
    ∀ ids r r', attemptAll b inc ss ids r = .ok ⟨false, r'⟩ →
      Steps b inc (identsList ss) r r' := by
  induction ss with
  | nil =>
    intro ids r r' h
    cases h
  | cons s ss ihss =>
    intro ids r r' h
    cases ids with
    | nil => cases h
    | cons id ids =>
      have hfirst : ∀ i ∈ s.idents, i ∈ identsList (s :: ss) := fun i hi => by simp [hi]
      have hrest : ∀ i ∈ identsList ss, i ∈ identsList (s :: ss) := fun i hi => by simp [hi]
      rw [attemptAll, bind_eq_ok] at h
      obtain ⟨⟨matched, r₁⟩, hs, h⟩ := h
      -- The first argument has matched, and one of the others fails, or it has failed itself.
      cases matched with
      | true =>
        have hss : Steps b inc (identsList ss) r₁ r' :=
          ihss (fun a ha => ih a (List.mem_cons_of_mem s ha)) ids r₁ r' h
        exact ((attempt_steps s id r r₁ hs).mono hfirst).trans (hss.mono hrest)
      | false =>
        cases h
        exact (ih s List.mem_cons_self id r _ hs).mono hfirst

/-- A failed attempt is a sequence of steps too, if an incomplete one. Only an operation leaves any
behind, namely those of the arguments that had matched. -/
theorem steps_of_failed (s : Shape) :
    ∀ id r r', attempt b inc s id r = .ok ⟨false, r'⟩ → Steps b inc s.idents r r' := by
  induction s using Shape.induction with
  | node ident ty op args ih =>
    intro id r r' h
    rcases attempt_failed h with rfl | ⟨ident', ty', op', args', n, hs, -, -, hargs⟩
    · exact .refl
    · cases hs
      refine (attemptAll_failed ih n.inputs r r' hargs).mono fun i hi => ?_
      rw [idents_node, List.mem_append]
      exact .inr hi
  | producer | constant | inclusion | backreference =>
    intro id r r' h
    rcases attempt_failed h with rfl | ⟨ident', ty', op', args', n, hs, -⟩
    · exact .refl
    · cases hs

/-- **Every attempt is a sequence of steps,** whether it succeeds or fails. -/
theorem attempt_traces (s : Shape) {id : NodeId} {r : Match} {a : Attempt}
    (h : attempt b inc s id r = .ok a) : Steps b inc s.idents r a.record := by
  obtain ⟨matched, r'⟩ := a
  cases matched with
  | true => exact attempt_steps s id r r' h
  | false => exact steps_of_failed s id r r' h

theorem persists_grown : Persists Match.Grown where
  refl _ := ⟨fun _ => id, fun _ => id⟩
  trans _ _ _ h h' := ⟨fun k => h'.1 k ∘ h.1 k, fun k => h'.2 k ∘ h.2 k⟩
  cover _ _ := ⟨fun _ hk => NodeSet.mem_insert.2 (.inr hk), fun _ => id⟩
  read _ _ := ⟨fun _ => id, fun _ hk => NodeSet.mem_insert.2 (.inr hk)⟩

theorem Steps.grown {idents : List String} {r r' : Match} (h : Steps b inc idents r r') :
    r.Grown r' :=
  h.keeps persists_grown (fun _ _ _ _ => ⟨fun _ => id, fun _ => id⟩)
    fun _ _ _ _ => ⟨fun _ => id, fun _ => id⟩

/-- Steps leave the record with its pattern and its root. -/
theorem Steps.sameHead {idents : List String} {r r' : Match} (h : Steps b inc idents r r') :
    SameHead r r' :=
  h.keeps persists_sameHead (fun _ _ _ _ => ⟨rfl, rfl⟩) fun _ _ _ _ => ⟨rfl, rfl⟩

/-! ## Other sets of nodes -/

/-- With any sets of nodes the run ends as it did, and the same nodes are added to the sets. -/
def Adds (run : Match → Except Fault Attempt) (r : Match) (a : Attempt) : Prop :=
  ∃ covered inputs : NodeSet, ∀ c i, run (r.withNodes c i)
    = .ok ⟨a.matched, a.record.withNodes (c.union covered) (i.union inputs)⟩

theorem adds_nothing {run : Match → Except Fault Attempt} {r : Match} {matched : Bool}
    (h : ∀ c i, run (r.withNodes c i) = .ok ⟨matched, r.withNodes c i⟩) :
    Adds run r ⟨matched, r⟩ :=
  ⟨.empty, .empty, h⟩

/-- Arguments add to the sets of nodes what each of them adds, up to the first that fails. What is
added does not depend on the sets there were. -/
theorem attemptAll_withNodes {ss : List Shape}
    (ih : ∀ s ∈ ss, ∀ id r a, attempt b inc s id r = .ok a → Adds (attempt b inc s id) r a) :
    ∀ ids r a, attemptAll b inc ss ids r = .ok a → Adds (attemptAll b inc ss ids) r a := by
  induction ss with
  | nil =>
    intro ids r a h
    cases h
    exact adds_nothing fun c i => rfl
  | cons s ss ihss =>
    intro ids r a h
    cases ids with
    | nil =>
      cases h
      exact adds_nothing fun c i => rfl
    | cons id ids =>
      rw [attemptAll, bind_eq_ok] at h
      obtain ⟨⟨matched, r₁⟩, hs, h⟩ := h
      obtain ⟨c₁, i₁, hfirst⟩ := ih s List.mem_cons_self id r _ hs
      cases matched with
      | false =>
        cases h
        refine ⟨c₁, i₁, fun c i => ?_⟩
        rw [attemptAll, hfirst, ok_bind]
        rfl
      | true =>
        -- What the others add comes on top of what the first has added, with any sets to start
        -- from.
        obtain ⟨c₂, i₂, hrest⟩ :=
          ihss (fun a ha => ih a (List.mem_cons_of_mem s ha)) ids r₁ a h
        refine ⟨c₁.union c₂, i₁.union i₂, fun c i => ?_⟩
        rw [attemptAll, hfirst, ok_bind, if_pos rfl, hrest, NodeSet.union_union,
          NodeSet.union_union]

/-- An operation adds what the order of its arguments adds that was taken, and its own node. What an
order added that was given up is not in the record any more. -/
theorem node_withNodes {ident : Option String} {ty : Option ValueType} {op : Operation}
    {args : List Shape}
    (hargs : ∀ ids r a, attemptAll b inc args ids r = .ok a →
      Adds (attemptAll b inc args ids) r a) {id : NodeId} {r : Match} {a : Attempt}
    (h : attempt b inc (.node ident ty op args) id r = .ok a) :
    Adds (attempt b inc (.node ident ty op args) id) r a := by
  rw [attempt, bind_eq_ok] at h
  obtain ⟨n, hn, h⟩ := h
  split at h
  · rename_i hcond
    obtain ⟨⟨matched, r₁⟩, hfirst, h⟩ := bind_eq_ok.1 h
    obtain ⟨c₁, i₁, hfirst'⟩ := hargs _ _ _ hfirst
    cases matched with
    | true =>
      cases h
      refine ⟨c₁.insert id, i₁, fun c i => ?_⟩
      rw [attempt, hn, ok_bind, if_pos hcond, hfirst', ok_bind, if_pos rfl,
        Match.cover_withNodes, Match.bind_withNodes, NodeSet.union_insert]
      rfl
    | false =>
      rw [if_neg Bool.false_ne_true] at h
      split at h
      · rename_i hcomm
        obtain ⟨⟨matched, r₂⟩, hsecond, h⟩ := bind_eq_ok.1 h
        obtain ⟨c₂, i₂, hsecond'⟩ := hargs _ _ _ hsecond
        cases matched with
        | true =>
          cases h
          refine ⟨c₂.insert id, i₂, fun c i => ?_⟩
          rw [attempt, hn, ok_bind, if_pos hcond, hfirst', ok_bind, if_neg Bool.false_ne_true,
            if_pos hcomm, hsecond', ok_bind, if_pos rfl, Match.cover_withNodes,
            Match.bind_withNodes, NodeSet.union_insert]
          rfl
        | false =>
          -- Both orders failed, and the record is the one they were tried from.
          cases h
          refine adds_nothing fun c i => ?_
          rw [attempt, hn, ok_bind, if_pos hcond, hfirst', ok_bind, if_neg Bool.false_ne_true,
            if_pos hcomm, hsecond', ok_bind, if_neg Bool.false_ne_true]
          rfl
      · rename_i hfixed
        cases h
        refine ⟨c₁, i₁, fun c i => ?_⟩
        rw [attempt, hn, ok_bind, if_pos hcond, hfirst', ok_bind, if_neg Bool.false_ne_true,
          if_neg hfixed]
        rfl
  · rename_i hcond
    cases h
    refine adds_nothing fun c i => ?_
    rw [attempt, hn, ok_bind, if_neg hcond]
    rfl

/-- **An attempt does not look at the sets of nodes.** With other sets it ends the same way and adds
the same nodes to them. The induction is on the shape, and each test is repeated with the other
sets. -/
theorem attempt_withNodes (s : Shape) :
    ∀ id r a, attempt b inc s id r = .ok a → Adds (attempt b inc s id) r a := by
  induction s using Shape.induction with
  | node ident ty op args ih => exact fun id r a => node_withNodes (attemptAll_withNodes ih)
  | producer ident ty =>
    intro id r a h
    rw [attempt, bind_eq_ok] at h
    obtain ⟨n, hn, h⟩ := h
    split at h
    · rename_i hcond
      cases h
      -- A value is read: its node goes to the inputs.
      refine ⟨.empty, NodeSet.empty.insert id, fun c i => ?_⟩
      rw [attempt, hn, ok_bind, if_pos hcond, Match.bind_withNodes, Match.read_withNodes,
        NodeSet.union_insert, NodeSet.union_empty, NodeSet.union_empty]
      rfl
    · rename_i hcond
      cases h
      refine adds_nothing fun c i => ?_
      rw [attempt, hn, ok_bind, if_neg hcond]
      rfl
  | constant ident ty value =>
    intro id r a h
    rw [attempt, bind_eq_ok] at h
    obtain ⟨n, hn, h⟩ := h
    split at h
    · rename_i hcond
      cases h
      -- A constant is written out: its node is covered.
      refine ⟨NodeSet.empty.insert id, .empty, fun c i => ?_⟩
      rw [attempt, hn, ok_bind, if_pos hcond, Match.bind_withNodes, Match.cover_withNodes,
        NodeSet.union_insert, NodeSet.union_empty, NodeSet.union_empty]
      rfl
    · rename_i hcond
      cases h
      refine adds_nothing fun c i => ?_
      rw [attempt, hn, ok_bind, if_neg hcond]
      rfl
  | inclusion ident group =>
    intro id r a h
    rw [attempt, bind_eq_ok] at h
    obtain ⟨n, hn, h⟩ := h
    obtain ⟨ms, hms, h⟩ := bind_eq_ok.1 h
    split at h
    · rename_i hempty
      cases h
      refine adds_nothing fun c i => ?_
      rw [attempt, hn, ok_bind, hms, ok_bind, if_pos hempty]
      rfl
    · rename_i hempty
      cases h
      refine ⟨.empty, .empty, fun c i => ?_⟩
      rw [attempt, hn, ok_bind, hms, ok_bind, if_neg hempty, Match.addAlternatives_withNodes]
      rfl
  | backreference ident =>
    intro id r a h
    rw [attempt, bind_eq_ok] at h
    obtain ⟨n, hn, h⟩ := h
    split at h
    · rename_i hres
      cases h
      refine adds_nothing fun c i => ?_
      rw [attempt, hn, ok_bind, Match.resolve?_withNodes, if_pos hres]
      rfl
    · rename_i hres
      cases h
      refine adds_nothing fun c i => ?_
      rw [attempt, hn, ok_bind, Match.resolve?_withNodes, if_neg hres]
      rfl

end Shape

/-! ## Attempts with tables -/

namespace Tables

variable {t : Tables} {b : Block} {n : Nat} {s : Shape} {id : NodeId} {r : Match} {a : Attempt}

/-- **An attempt only touches what it may.** Take an attempt that comes to an end, however deep
inclusions may nest. The record is still that of its pattern and its node, the nodes computed and
read only get more, and the entries of identifiers that the shape does not introduce are as they
were, whether the attempt succeeds or fails. If it fails and its shape is not an operation that is
matched in one order, the record is the one from before. And whatever nodes had been computed and
read before, the attempt would have ended in the same way and have added the same nodes. -/
theorem attempt_framed (h : s.attempt b (t.alternatives b n) id r = .ok a) :
    (a.record.pattern = r.pattern ∧ a.record.root = r.root)
      ∧ (∀ k, k ∈ r.covered → k ∈ a.record.covered)
      ∧ (∀ k, k ∈ r.inputs → k ∈ a.record.inputs)
      ∧ (∀ i, ¬ i ∈ s.idents → Keyed.get? i a.record.bindings = Keyed.get? i r.bindings
          ∧ Keyed.get? i a.record.submatches = Keyed.get? i r.submatches)
      ∧ (a.matched = false → s.inOneOrder = false → a.record = r)
      ∧ ∃ covered inputs : NodeSet, ∀ c i : NodeSet,
          s.attempt b (t.alternatives b n) id (r.withNodes c i)
            = .ok ⟨a.matched, a.record.withNodes (c.union covered) (i.union inputs)⟩ := by
  have hsteps := Shape.attempt_traces s h
  refine ⟨hsteps.sameHead, hsteps.grown.1, hsteps.grown.2, fun i hi => ?_, fun hfailed horder => ?_,
    Shape.attempt_withNodes s id r a h⟩
  · obtain ⟨hsubmatches, hbindings⟩ := hsteps.sameAt hi
    exact ⟨hbindings, hsubmatches⟩
  · -- A failed attempt with more than one order, or with none, has put the record back.
    obtain ⟨matched, r'⟩ := a
    obtain rfl : matched = false := hfailed
    rcases Shape.attempt_failed h with heq | ⟨-, -, -, -, -, -, hone, -⟩
    · exact heq
    · rw [horder] at hone
      cases hone

/-- Something and a number. -/
def withNumber (op : Operation) (v : Int64) : Shape :=
  .node none none op [.producer (some "x") none, .constant none none (some v)]

/-- The difference and the sum of an argument and 5. -/
def withFive : Block := Build.finish ⟨"numbers", "f", "entry"⟩ do
  let x ← Build.arg 0 .i32
  let five ← Build.int 5 .i32
  let _ ← Build.op .sub .i32 [x, five]
  Build.op .add .i32 [x, five]

/-- A record in which another identifier is bound and a node is computed already. -/
def used : Match :=
  ((Match.start ⟨⟨"numbers", 0⟩, withNumber .add 5, []⟩ 3).bind (some "z") 1).cover 2

/-- Where 7 is asked for, the difference fails with the argument bound and read, and the sum fails
without a trace. Where 5 is asked for, the sum adds two nodes to whatever was computed. -/
theorem attempt_framed_withFive :
    (∃ a, (withNumber .sub 7).attempt withFive ((ofPatterns []).alternatives withFive 1) 2 used
          = .ok a ∧ a.matched = false ∧ 0 ∈ a.record.inputs
        ∧ Keyed.get? "x" a.record.bindings = some 0 ∧ Keyed.get? "z" a.record.bindings = some 1)
      ∧ (∃ a, (withNumber .add 7).attempt withFive ((ofPatterns []).alternatives withFive 1) 3 used
          = .ok a ∧ a.matched = false ∧ a.record = used)
      ∧ ∃ a, (withNumber .add 5).attempt withFive ((ofPatterns []).alternatives withFive 1) 3 used
          = .ok a ∧ a.matched = true ∧ a.record.covered = .ofList [1, 2, 3]
        ∧ ∃ covered inputs : NodeSet, ∀ c i : NodeSet,
          (withNumber .add 5).attempt withFive ((ofPatterns []).alternatives withFive 1) 3
              (used.withNodes c i)
            = .ok ⟨true, a.record.withNodes (c.union covered) (i.union inputs)⟩ := by
  have hdifference :=
    @attempt_framed (ofPatterns []) withFive 1 (withNumber .sub 7) 2 used _ rfl
  have hsum := @attempt_framed (ofPatterns []) withFive 1 (withNumber .add 7) 3 used _ rfl
  have hmatch := @attempt_framed (ofPatterns []) withFive 1 (withNumber .add 5) 3 used _ rfl
  refine ⟨⟨_, rfl, rfl, by decide, rfl, ?_⟩, ⟨_, rfl, rfl, ?_⟩, ⟨_, rfl, rfl, rfl, ?_⟩⟩
  · exact (hdifference.2.2.2.1 "z" (by decide)).1
  · exact hsum.2.2.2.2.1 rfl rfl
  · exact hmatch.2.2.2.2.2

end Tables

end TileSelect
