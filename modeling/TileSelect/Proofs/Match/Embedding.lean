import Mathlib.Logic.Relation
import TileSelect.Proofs.Match.Entry
/-!
What a successful attempt says: an embedding, and a record that is exactly that embedding.

A successful attempt adds to the record what the positions of the shape contribute and nothing
else: nothing is left over from an order of operands that was tried and given up, and nothing of
the record before is lost. The induction is on the shape; what it carries is that the
identifiers of the shape are new to the record. The arguments of an operation introduce
different identifiers, so those of a later argument are still new when the earlier ones are
done.

Less can be said without any condition on the identifiers: a successful attempt changes the record
in steps, each of which is one of four. What holds of every step holds of every successful
attempt.
-/

set_option autoImplicit false

namespace TileSelect

open Relation

namespace Shape

variable {b : Block} {inc : Inclusion}

/-! ## Successful attempts, case by case -/

/-- An operation matches if its node does and its arguments match the operands, in order or, if
that fails and the operands may be exchanged, the other way round. -/
theorem attempt_node_orders {ident : Option String} {ty : Option ValueType} {op : Operation}
    {args : List Shape} {id : NodeId} {r r' : Match}
    (h : attempt b inc (.node ident ty op args) id r = .ok ⟨true, r'⟩) :
    ∃ n r₁, b.hasType id ty = true ∧ b.node? id = some n ∧ n.op = op
      ∧ n.inputs.length = args.length ∧ r' = (r₁.cover id).bind ident id
      ∧ (attemptAll b inc args n.inputs r = .ok ⟨true, r₁⟩
          ∨ (op.isCommutative = true ∧ args.length = 2
              ∧ (∃ r₂, attemptAll b inc args n.inputs r = .ok ⟨false, r₂⟩)
              ∧ attemptAll b inc args n.inputs.reverse r = .ok ⟨true, r₁⟩)) := by
  rw [attempt, bind_eq_ok] at h
  obtain ⟨n, hn, h⟩ := h
  rw [Block.node_eq_ok] at hn
  split at h
  · rename_i hcond
    simp only [Bool.and_eq_true, beq_iff_eq] at hcond
    obtain ⟨⟨hty, hop⟩, hlen⟩ := hcond
    obtain ⟨⟨matched, r₂⟩, hfirst, h⟩ := bind_eq_ok.1 h
    cases matched with
    | true =>
      cases h
      exact ⟨n, r₂, hty, hn, hop, hlen, rfl, .inl hfirst⟩
    | false =>
      rw [if_neg Bool.false_ne_true] at h
      split at h
      · rename_i hcomm
        simp only [Bool.and_eq_true, beq_iff_eq] at hcomm
        obtain ⟨⟨matched, r₁⟩, hsecond, h⟩ := bind_eq_ok.1 h
        cases matched with
        | true =>
          cases h
          exact ⟨n, r₁, hty, hn, hop, hlen, rfl, .inr ⟨hcomm.1, hcomm.2, ⟨r₂, hfirst⟩, hsecond⟩⟩
        | false => cases h
      -- In a fixed order a failed attempt is handed on as it is, and it is not this one.
      · cases h
  · cases h

/-- The same with the order that was taken as a list of operands. Which of the orders it was matters
only to those who count attempts. -/
theorem attempt_node_inv {ident : Option String} {ty : Option ValueType} {op : Operation}
    {args : List Shape} {id : NodeId} {r r' : Match}
    (h : attempt b inc (.node ident ty op args) id r = .ok ⟨true, r'⟩) :
    ∃ n operands r₁, b.hasType id ty = true ∧ b.node? id = some n ∧ n.op = op
      ∧ n.inputs.length = args.length
      ∧ (operands = n.inputs
          ∨ (op.isCommutative = true ∧ n.inputs.length = 2 ∧ operands = n.inputs.reverse))
      ∧ attemptAll b inc args operands r = .ok ⟨true, r₁⟩
      ∧ r' = (r₁.cover id).bind ident id := by
  obtain ⟨n, r₁, hty, hn, hop, hlen, rfl, hfirst | ⟨hcomm, htwo, -, hsecond⟩⟩ :=
    attempt_node_orders h
  · exact ⟨n, n.inputs, r₁, hty, hn, hop, hlen, .inl rfl, hfirst, rfl⟩
  · exact ⟨n, n.inputs.reverse, r₁, hty, hn, hop, hlen, .inr ⟨hcomm, hlen.trans htwo, rfl⟩,
      hsecond, rfl⟩

/-- What a successful attempt at a value has found: the width, a producer, and a capture and a read
in the record. It can have nothing else. -/
theorem attempt_producer_inv {ident : Option String} {ty : Option ValueType} {id : NodeId}
    {r r' : Match} (h : attempt b inc (.producer ident ty) id r = .ok ⟨true, r'⟩) :
    b.hasType id ty = true ∧ (∃ n, b.node? id = some n ∧ n.isProducer = true)
      ∧ r' = (r.bind ident id).read id := by
  rw [attempt, bind_eq_ok] at h
  obtain ⟨n, hn, h⟩ := h
  rw [Block.node_eq_ok] at hn
  split at h
  · rename_i hcond
    rw [Bool.and_eq_true] at hcond
    cases h
    exact ⟨hcond.1, ⟨n, hn, hcond.2⟩, rfl⟩
  · cases h

/-- What a successful attempt at a constant has found: the width, a constant that yields a value,
the number if one is asked for, and a capture of a node that is now covered. -/
theorem attempt_constant_inv {ident : Option String} {ty : Option ValueType}
    {value : Option Int64} {id : NodeId} {r r' : Match}
    (h : attempt b inc (.constant ident ty value) id r = .ok ⟨true, r'⟩) :
    b.hasType id ty = true
      ∧ (∃ n, b.node? id = some n ∧ n.op = .constant ∧ n.isProducer = true
          ∧ ∀ v, value = some v → n.literal? = some v)
      ∧ r' = (r.bind ident id).cover id := by
  rw [attempt, bind_eq_ok] at h
  obtain ⟨n, hn, h⟩ := h
  rw [Block.node_eq_ok] at hn
  split at h
  · rename_i hcond
    simp only [Bool.and_eq_true, Bool.or_eq_true, beq_iff_eq] at hcond
    obtain ⟨⟨⟨hty, hop⟩, hprod⟩, hvalue⟩ := hcond
    cases h
    refine ⟨hty, ⟨n, hn, hop, hprod, fun v hv => ?_⟩, rfl⟩
    -- No number was asked for, or it was compared with that of the node.
    rcases hvalue with hnone | hlit
    · rw [hv] at hnone
      cases hnone
    · exact hlit.trans hv
  · cases h

/-- What a successful attempt at a group has found: a node of the block at which some alternative
matches. All alternatives that do are recorded. -/
theorem attempt_inclusion_inv {ident group : String} {id : NodeId} {r r' : Match}
    (h : attempt b inc (.inclusion ident group) id r = .ok ⟨true, r'⟩) :
    id < b.size ∧ ∃ ms, inc group id = .ok ms ∧ ms ≠ [] ∧ r' = r.addAlternatives ident ms := by
  rw [attempt, bind_eq_ok] at h
  obtain ⟨n, hn, h⟩ := h
  rw [Block.node_eq_ok] at hn
  obtain ⟨ms, hms, h⟩ := bind_eq_ok.1 h
  split at h
  · cases h
  · rename_i hne
    cases h
    exact ⟨Block.node?_isSome_iff.1 ⟨n, hn⟩, ms, hms, by simpa using hne, rfl⟩

/-- What a successful attempt at a reference has found: the identifier resolves to the node itself,
and the record stays as it was. -/
theorem attempt_backreference_inv {ident : String} {id : NodeId} {r r' : Match}
    (h : attempt b inc (.backreference ident) id r = .ok ⟨true, r'⟩) :
    id < b.size ∧ r.resolve? ident = some id ∧ r' = r := by
  rw [attempt, bind_eq_ok] at h
  obtain ⟨n, hn, h⟩ := h
  rw [Block.node_eq_ok] at hn
  split at h
  · rename_i hres
    cases h
    exact ⟨Block.node?_isSome_iff.1 ⟨n, hn⟩, beq_iff_eq.1 hres, rfl⟩
  · cases h

/-- Arguments that all match were matched one after the other, with the record handed on. As long as
they match there is no way back to an earlier one. -/
theorem attemptAll_cons_inv {s : Shape} {ss : List Shape} {id : NodeId} {ids : List NodeId}
    {r r' : Match} (h : attemptAll b inc (s :: ss) (id :: ids) r = .ok ⟨true, r'⟩) :
    ∃ r₁, attempt b inc s id r = .ok ⟨true, r₁⟩ ∧ attemptAll b inc ss ids r₁ = .ok ⟨true, r'⟩ := by
  rw [attemptAll, bind_eq_ok] at h
  obtain ⟨⟨m, r₁⟩, ha, h⟩ := h
  split at h
  · rename_i hm
    cases hm
    exact ⟨r₁, ha, h⟩
  · rename_i hm
    cases h
    exact absurd rfl hm

/-! ## From attempts to embeddings -/

/-- A group is admitted at a node: some alternative is found there. -/
def Admits (inc : Inclusion) (group : String) (id : NodeId) : Prop :=
  ∃ ms, inc group id = .ok ms ∧ ms ≠ []

/-- A shape lies at a node by an embedding, and the record `r'` is the record `r` with what the
positions contribute. -/
structure Placed (b : Block) (inc : Inclusion) (s : Shape) (id : NodeId) (r r' : Match)
    (e : Embedding) : Prop where
  top : e [] = id
  lies : s.Everywhere e (LiesOn b (Admits inc) r'.Refers)
  exact : ∀ x, r'.Holds x ↔ r.Holds x ∨ s.Somewhere e fun s' k => s'.Records inc k x

/-- A successful attempt with a shape whose identifiers are different and new places it. -/
def Places (b : Block) (inc : Inclusion) (s : Shape) : Prop :=
  ∀ id r r', attempt b inc s id r = .ok ⟨true, r'⟩ → s.idents.Nodup →
    (∀ i ∈ s.idents, r.Free i) → ∃ e, Placed b inc s id r r' e

/-- A shape of a single position is placed by the embedding that sends everything to its node. What
it contributes to the record is what the attempt has entered. -/
theorem Placed.leaf {s : Shape} {id : NodeId} {r r' : Match}
    (hleaf : ∀ k rest, s.at? (k :: rest) = none)
    (hlies : s.LiesOn b (Admits inc) r'.Refers id fun _ => id)
    (hexact : ∀ x, r'.Holds x ↔ r.Holds x ∨ s.Records inc id x) :
    Placed b inc s id r r' fun _ => id where
  top := rfl
  lies := (everywhere_leaf hleaf).2 hlies
  exact x := by rw [somewhere_leaf hleaf]; exact hexact x

/-- Arguments are placed one by one, by an embedding each. The identifiers of the arguments are
different, so what one of them enters is new to the record of those before. -/
theorem attemptAll_placed {ss : List Shape} (ih : ∀ s ∈ ss, Places b inc s) :
    ∀ ids r r', ss.length = ids.length → attemptAll b inc ss ids r = .ok ⟨true, r'⟩ →
      (identsList ss).Nodup → (∀ i ∈ identsList ss, r.Free i) →
      ∃ es : Nat → Embedding, (∀ (k : Nat) (x : NodeId), ids[k]? = some x → es k [] = x)
        ∧ (∀ (k : Nat) (a : Shape), ss[k]? = some a →
            a.Everywhere (es k) (LiesOn b (Admits inc) r'.Refers))
        ∧ ∀ x, r'.Holds x ↔ r.Holds x
            ∨ ∃ (k : Nat) (a : Shape), ss[k]? = some a
              ∧ a.Somewhere (es k) fun s' id => s'.Records inc id x := by
  induction ss with
  | nil =>
    intro ids r r' hlen h _ _
    cases ids with
    | cons => cases hlen
    | nil =>
      cases h
      exact ⟨fun _ _ => 0, by simp, by simp, by simp⟩
  | cons s ss ihss =>
    intro ids r r' hlen h hnd hfree
    cases ids with
    | nil => cases hlen
    | cons id ids =>
      obtain ⟨r₁, hs, hss⟩ := attemptAll_cons_inv h
      rw [identsList_cons, List.nodup_append] at hnd
      obtain ⟨hnds, hndss, hdisj⟩ := hnd
      rw [identsList_cons] at hfree
      obtain ⟨e, he⟩ := ih s List.mem_cons_self id r r₁ hs hnds fun i hi =>
        hfree i (List.mem_append_left _ hi)
      -- The identifiers of the other arguments are still new: `s` introduces none of them.
      have hfree₁ : ∀ i ∈ identsList ss, r₁.Free i := by
        intro i hi x hx hheld
        rcases (he.exact x).1 hheld with hold | hsome
        · exact hfree i (List.mem_append_right _ hi) x hx hold
        · exact hdisj i (mem_idents_of_somewhere hx hsome) i hi rfl
      obtain ⟨es, htop, hlies, hexact⟩ := ihss (fun a ha => ih a (List.mem_cons_of_mem s ha)) ids
        r₁ r' (by simpa using hlen) hss hndss hfree₁
      refine ⟨fun k => k.casesOn e es, ?_, ?_, ?_⟩
      · intro k x hx
        cases k with
        | zero =>
          rw [List.getElem?_cons_zero, Option.some.injEq] at hx
          exact he.top.trans hx
        | succ k => exact htop k x (by simpa using hx)
      · intro k a ha
        cases k with
        | zero =>
          rw [List.getElem?_cons_zero, Option.some.injEq] at ha
          subst ha
          exact he.lies.imp fun s' id child => LiesOn.imp (fun _ _ _ h => h) fun _ _ =>
            Match.Refers.imp fun x hx => (hexact x).2 (.inl hx)
        | succ k => exact hlies k a (by simpa using ha)
      · intro x
        rw [hexact x, he.exact x, or_assoc]
        refine or_congr_right ⟨?_, ?_⟩
        · rintro (hsome | ⟨k, a, ha, hsome⟩)
          · exact ⟨0, s, rfl, hsome⟩
          · exact ⟨k + 1, a, by simpa using ha, hsome⟩
        · rintro ⟨k, a, ha, hsome⟩
          cases k with
          | zero =>
            rw [List.getElem?_cons_zero, Option.some.injEq] at ha
            exact .inl (ha ▸ hsome)
          | succ k => exact .inr ⟨k, a, by simpa using ha, hsome⟩

/-- An operation is placed if its arguments are: the embeddings of the arguments make one below the
node. Its own identifier is captured last, and is none of its arguments'. -/
theorem places_node {ident : Option String} {ty : Option ValueType} {op : Operation}
    {args : List Shape} (ih : ∀ a ∈ args, Places b inc a) :
    Places b inc (.node ident ty op args) := by
  intro id r r' h hnd hfree
  obtain ⟨n, operands, r₁, hty, hn, hop, hlen, horder, hall, rfl⟩ := attempt_node_inv h
  rw [idents_node, List.nodup_append] at hnd
  obtain ⟨-, hndargs, hdisj⟩ := hnd
  rw [idents_node] at hfree
  have hlen' : args.length = operands.length := by
    rcases horder with rfl | ⟨-, -, rfl⟩
    · exact hlen.symm
    · rw [List.length_reverse, hlen]
  obtain ⟨es, htop, hlies, hexact⟩ := attemptAll_placed ih operands r r₁ hlen' hall hndargs
    fun i hi => hfree i (List.mem_append_right _ hi)
  -- The capture of the operation itself comes last, and no argument introduces it.
  have hfree₁ : ∀ i, ident = some i → (r₁.cover id).Free i := by
    rintro i rfl x hx hheld
    rw [Match.holds_cover, hexact] at hheld
    rcases hheld with (hold | ⟨k, a, ha, hsome⟩) | rfl
    · exact hfree i (List.mem_append_left _ (by simp)) x hx hold
    · have hmem := mem_identsList.2
        ⟨a, List.mem_of_getElem? ha, mem_idents_of_somewhere hx hsome⟩
      exact hdisj i (by simp) i hmem rfl
    · cases hx
  have hgrow : ∀ x, ((r₁.cover id).bind ident id).Holds x ↔ r₁.Holds x ∨ x = .covered id
      ∨ ∃ i, ident = some i ∧ x = .bound i id := by
    intro x
    rw [Match.holds_bind hfree₁, Match.holds_cover, or_assoc]
  refine ⟨fun | [] => id | k :: rest => es k rest, rfl, ?_, fun x => ?_⟩
  · rw [everywhere_node]
    refine ⟨⟨hty, n, hn, hop, hlen, ?_⟩, fun k a ha => ?_⟩
    · rcases horder with rfl | ⟨hcomm, htwo, rfl⟩
      · exact .inl htop
      · exact .inr ⟨hcomm, htwo, htop⟩
    · exact (hlies k a ha).imp fun s' id child => LiesOn.imp (fun _ _ _ h => h) fun _ _ =>
        Match.Refers.imp fun x hx => (hgrow x).2 (.inl hx)
  · rw [hgrow x, hexact x, or_assoc, somewhere_node]
    exact or_congr_right or_comm

/-- **A successful attempt is an embedding, and its record is that embedding.** Nothing is said here
about which embedding, if there are several; that the record has all of one and nothing of another
is the point. -/
theorem places (s : Shape) : Places b inc s := by
  induction s using Shape.induction with
  | node ident ty op args ih => exact places_node ih
  | producer ident ty =>
    intro id r r' h hnd hfree
    obtain ⟨hty, hn, rfl⟩ := attempt_producer_inv h
    refine ⟨_, .leaf (fun _ _ => rfl) ⟨hty, hn⟩ fun x => ?_⟩
    -- The identifier is new to the record, so capturing the node adds one entry.
    have hfresh : ∀ i, ident = some i → r.Free i := fun i hi =>
      hfree i (mem_idents_of_at? (at?_nil _) hi)
    rw [Match.holds_read, Match.holds_bind hfresh, or_assoc]
    exact or_congr_right or_comm
  | constant ident ty value =>
    intro id r r' h hnd hfree
    obtain ⟨hty, hn, rfl⟩ := attempt_constant_inv h
    refine ⟨_, .leaf (fun _ _ => rfl) ⟨hty, hn⟩ fun x => ?_⟩
    have hfresh : ∀ i, ident = some i → r.Free i := fun i hi =>
      hfree i (mem_idents_of_at? (at?_nil _) hi)
    rw [Match.holds_cover, Match.holds_bind hfresh, or_assoc]
    exact or_congr_right or_comm
  | inclusion ident group =>
    intro id r r' h hnd hfree
    obtain ⟨hid, ms, hms, hne, rfl⟩ := attempt_inclusion_inv h
    refine ⟨_, .leaf (fun _ _ => rfl) ⟨hid, ms, hms, hne⟩ fun x => ?_⟩
    rw [Match.holds_addAlternatives (hfree ident (mem_idents_of_at? (at?_nil _) rfl))]
    refine or_congr_right ⟨fun hx => ⟨ms, hms, hx⟩, ?_⟩
    -- The alternatives at the node are those that were found there, and no others.
    rintro ⟨ms', hms', hx⟩
    rw [hms] at hms'
    cases hms'
    exact hx
  | backreference ident =>
    intro id r r' h hnd hfree
    obtain ⟨hid, hres, rfl⟩ := attempt_backreference_inv h
    refine ⟨_, .leaf (fun _ _ => rfl) ⟨hid, Match.refers_of_resolve? hres⟩ fun x => ?_⟩
    simp [Records]

/-! ## Steps of a successful attempt -/

/-- What a successful attempt may do to the record at a time, with the identifiers it may enter
something under: compute or read a node of the block, bind a node, or record the alternatives of
a group. -/
inductive Step (b : Block) (inc : Inclusion) (idents : List String) : Match → Match → Prop
  | cover (r : Match) {id : NodeId} (hid : id < b.size) : Step b inc idents r (r.cover id)
  | read (r : Match) {id : NodeId} (hid : id < b.size) : Step b inc idents r (r.read id)
  | bind (r : Match) {i : String} {id : NodeId} (hi : i ∈ idents) (hid : id < b.size) :
      Step b inc idents r (r.bind (some i) id)
  | addAlternatives (r : Match) {i g : String} {id : NodeId} {ms : List Match} (hi : i ∈ idents)
      (hid : id < b.size) (hms : inc g id = .ok ms) (hne : ms ≠ []) :
      Step b inc idents r (r.addAlternatives i ms)

/-- Some steps. -/
abbrev Steps (b : Block) (inc : Inclusion) (idents : List String) : Match → Match → Prop :=
  ReflTransGen (Step b inc idents)

/-- More identifiers may be allowed. The steps of an argument are thus steps of the whole operation.
-/
theorem Steps.mono {idents idents' : List String} (h : ∀ i ∈ idents, i ∈ idents') {r r' : Match}
    (hsteps : Steps b inc idents r r') : Steps b inc idents' r r' := by
  refine ReflTransGen.mono (fun r r' hstep => ?_) r r' hsteps
  cases hstep with
  | cover hid => exact .cover r hid
  | read hid => exact .read r hid
  | bind hi hid => exact .bind r (h _ hi) hid
  | addAlternatives hi hid hms hne => exact .addAlternatives r (h _ hi) hid hms hne

/-- A capture is a step or nothing. -/
theorem steps_bind {idents : List String} {ident : Option String} {id : NodeId} (r : Match)
    (hident : ∀ i, ident = some i → i ∈ idents) (hid : id < b.size) :
    Steps b inc idents r (r.bind ident id) := by
  cases ident with
  | none => exact .refl
  | some i => exact .single (.bind r (hident i rfl) hid)

/-- Arguments that match make their steps one after the other, and every one of them is allowed for
the operation. -/
theorem attemptAll_steps {ss : List Shape}
    (ih : ∀ s ∈ ss, ∀ id r r', attempt b inc s id r = .ok ⟨true, r'⟩ →
      Steps b inc s.idents r r') :
    ∀ ids r r', attemptAll b inc ss ids r = .ok ⟨true, r'⟩ →
      Steps b inc (identsList ss) r r' := by
  induction ss with
  | nil =>
    intro ids r r' h
    cases h
    exact .refl
  | cons s ss ihss =>
    intro ids r r' h
    cases ids with
    | nil =>
      cases h
      exact .refl
    | cons id ids =>
      obtain ⟨r₁, hs, hss⟩ := attemptAll_cons_inv h
      have h₁ : Steps b inc (identsList (s :: ss)) r r₁ :=
        (ih s List.mem_cons_self id r r₁ hs).mono fun i hi => by simp [hi]
      have h₂ : Steps b inc (identsList (s :: ss)) r₁ r' :=
        (ihss (fun a ha => ih a (List.mem_cons_of_mem s ha)) ids r₁ r' hss).mono
          fun i hi => by simp [hi]
      exact h₁.trans h₂

/-- **A successful attempt is a sequence of steps.** What is proved of one step for all records is
proved of attempts by this, without a look at the shapes. -/
theorem attempt_steps (s : Shape) :
    ∀ id r r', attempt b inc s id r = .ok ⟨true, r'⟩ → Steps b inc s.idents r r' := by
  induction s using Shape.induction with
  | node ident ty op args ih =>
    intro id r r' h
    obtain ⟨n, operands, r₁, -, hn, -, -, -, hall, rfl⟩ := attempt_node_inv h
    have hid : id < b.size := Block.node?_isSome_iff.1 ⟨n, hn⟩
    -- The steps of the arguments come first; covering the node and capturing it come last.
    have hargs : Steps b inc (node ident ty op args).idents r r₁ :=
      (attemptAll_steps ih operands r r₁ hall).mono fun i hi => by
        rw [idents_node, List.mem_append]
        exact .inr hi
    refine (hargs.tail (.cover r₁ hid)).trans (steps_bind _ (fun i hi => ?_) hid)
    exact mem_idents_of_at? (at?_nil _) hi
  | producer ident ty =>
    intro id r r' h
    obtain ⟨-, ⟨n, hn, -⟩, rfl⟩ := attempt_producer_inv h
    have hid : id < b.size := Block.node?_isSome_iff.1 ⟨n, hn⟩
    exact (steps_bind r (fun i hi => mem_idents_of_at? (at?_nil _) hi) hid).tail (.read _ hid)
  | constant ident ty value =>
    intro id r r' h
    obtain ⟨-, ⟨n, hn, -⟩, rfl⟩ := attempt_constant_inv h
    have hid : id < b.size := Block.node?_isSome_iff.1 ⟨n, hn⟩
    exact (steps_bind r (fun i hi => mem_idents_of_at? (at?_nil _) hi) hid).tail (.cover _ hid)
  | inclusion ident group =>
    intro id r r' h
    obtain ⟨hid, ms, hms, hne, rfl⟩ := attempt_inclusion_inv h
    exact .single (.addAlternatives r (mem_idents_of_at? (at?_nil _) rfl) hid hms hne)
  | backreference ident =>
    intro id r r' h
    obtain ⟨-, -, rfl⟩ := attempt_backreference_inv h
    exact .refl

/-! ## What stays -/

/-- A relation between an earlier and a later record to which the sets of nodes do not matter. -/
structure Persists (R : Match → Match → Prop) : Prop where
  refl : ∀ r, R r r
  trans : ∀ r r₁ r₂, R r r₁ → R r₁ r₂ → R r r₂
  cover : ∀ r id, R r (r.cover id)
  read : ∀ r id, R r (r.read id)

variable {R : Match → Match → Prop}

/-- A relation that every step respects holds from the first record to the last. For the sets of
nodes that is part of what it is to persist; captures and alternatives are left to be shown. -/
theorem Steps.keeps (hR : Persists R) {idents : List String}
    (hbind : ∀ i ∈ idents, ∀ r id, R r (r.bind (some i) id))
    (hadd : ∀ i ∈ idents, ∀ r ms, R r (r.addAlternatives i ms)) {r r' : Match}
    (h : Steps b inc idents r r') : R r r' := by
  induction h with
  | refl => exact hR.refl r
  | @tail r₁ r₂ _ hstep ih =>
    -- The last step, whichever of the four it was.
    have hlast : R r₁ r₂ := by
      cases hstep with
      | cover hid => exact hR.cover r₁ _
      | read hid => exact hR.read r₁ _
      | bind hi hid => exact hbind _ hi r₁ _
      | addAlternatives hi hid hms hne => exact hadd _ hi r₁ _
    exact hR.trans _ _ _ ih hlast

/-- **What every entry keeps, a successful attempt keeps.** The entries that matter are those for
the identifiers of the shape. -/
theorem attempt_keeps (hR : Persists R) (s : Shape)
    (hbind : ∀ i ∈ s.idents, ∀ r id, R r (r.bind (some i) id))
    (hadd : ∀ i ∈ s.idents, ∀ r ms, R r (r.addAlternatives i ms)) :
    ∀ id r r', attempt b inc s id r = .ok ⟨true, r'⟩ → R r r' :=
  fun id r r' h => (attempt_steps s id r r' h).keeps hR hbind hadd

/-- The record is still that of the same pattern at the same node. -/
def SameHead (r r' : Match) : Prop := r'.pattern = r.pattern ∧ r'.root = r.root

theorem persists_sameHead : Persists SameHead where
  refl _ := ⟨rfl, rfl⟩
  trans _ _ _ h h' := ⟨h'.1.trans h.1, h'.2.trans h.2⟩
  cover _ _ := ⟨rfl, rfl⟩
  read _ _ := ⟨rfl, rfl⟩

end Shape

/-! ## Patterns -/

namespace Pattern

variable {b : Block} {inc : Inclusion} {p : Pattern} {id : NodeId} {m : Match}

/-- A pattern is matched if its shape is, from a record that says nothing but the pattern and its
root. -/
theorem matchWith_eq_some (h : p.matchWith b inc id = .ok (some m)) :
    p.root.attempt b inc id (.start p id) = .ok ⟨true, m⟩ := by
  rw [matchWith, bind_eq_ok] at h
  obtain ⟨⟨matched, r⟩, ha, h⟩ := h
  cases matched with
  | false => cases h
  | true =>
    cases h
    exact ha

/-- The record of a match names its pattern and its node, from which it was started. -/
theorem matchWith_head (h : p.matchWith b inc id = .ok (some m)) :
    m.pattern = p ∧ m.root = id :=
  Shape.attempt_keeps Shape.persists_sameHead p.root (fun _ _ _ _ => ⟨rfl, rfl⟩)
    (fun _ _ _ _ => ⟨rfl, rfl⟩) id (.start p id) m (matchWith_eq_some h)

/-- **A match is an embedding.** The record started out empty, so it says what the positions
contribute and nothing else. -/
theorem matchWith_placed (h : p.matchWith b inc id = .ok (some m)) (hnd : p.root.idents.Nodup) :
    ∃ e, Shape.Placed b inc p.root id (.start p id) m e :=
  Shape.places p.root id (.start p id) m (matchWith_eq_some h) hnd fun i _ =>
    Match.free_start p id i

end Pattern

/-- The record of a match says what its positions contribute, and nothing else. -/
theorem Shape.Placed.holds_iff {b : Block} {inc : Inclusion} {p : Pattern} {id : NodeId}
    {m : Match} {e : Embedding} (h : Placed b inc p.root id (.start p id) m e) (x : Entry) :
    m.Holds x ↔ p.root.Somewhere e fun s' k => s'.Records inc k x := by
  rw [h.exact x]
  exact or_iff_right (Match.not_holds_start p id x)

end TileSelect
