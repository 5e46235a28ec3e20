import TileSelect.Proofs.Match.Layers
/-!
When an embedding exists, matching finds one.

Matching commits itself: at a commutative operation the first order that works is kept, even if
a reference back further on would have needed the other one. So an embedding alone does not make
a pattern match. What has to be excluded is a reference to an identifier that was introduced
below a commutative operation which is already done with; `settle` follows a shape in the order
of matching and keeps the identifiers that no such choice can move. A shape whose references all
go to settled identifiers is found wherever it lies (`attempt_complete`), and a shape without
references is always of that kind.

The induction carries one promise about the record: a settled identifier resolves to the node
where the embedding has it. A commutative operation may be matched in another way than the
embedding says; the promise survives because the record is then the same outside of what was
introduced below that operation.
-/

set_option autoImplicit false

namespace TileSelect

/-! ## What an attempt leaves alone -/

namespace Match

/-- Two records say the same about an identifier. -/
def SameAt (r r' : Match) (i : String) : Prop :=
  Keyed.get? i r'.submatches = Keyed.get? i r.submatches
    ∧ Keyed.get? i r'.bindings = Keyed.get? i r.bindings

/-- Records that say the same about an identifier in turn say the same from the first to the last;
so the arguments of an operation can be taken one after the other. -/
theorem SameAt.trans {r r₁ r' : Match} {i : String} (h : SameAt r r₁ i) (h' : SameAt r₁ r' i) :
    SameAt r r' i :=
  ⟨h'.1.trans h.1, h'.2.trans h.2⟩

/-- What an identifier resolves to depends only on what is said about it, in the captures and the
groups. -/
theorem SameAt.resolve? {r r' : Match} {i : String} (h : SameAt r r' i) :
    r'.resolve? i = r.resolve? i := by
  rw [Match.resolve?, Match.resolve?, h.1, h.2]

/-- Capturing a node says nothing about any identifier but the one that it is captured under. -/
theorem sameAt_bind {r : Match} {ident : Option String} {id : NodeId} {i : String}
    (h : ident ≠ some i) : SameAt r (r.bind ident id) i := by
  cases ident with
  | none => exact ⟨rfl, rfl⟩
  | some j =>
    have hne : i ≠ j := fun hij => h (congrArg some hij.symm)
    exact ⟨rfl, Keyed.get?_insert_of_ne hne id r.bindings⟩

/-- A captured identifier resolves to its node, unless it has alternatives as well. In a pattern
that compiles no identifier has both, as each is introduced once. -/
theorem resolve?_bind_self {r : Match} {i : String} {id : NodeId}
    (h : Keyed.get? i r.submatches = none) : (r.bind (some i) id).resolve? i = some id := by
  have hsub : Keyed.get? i (r.bind (some i) id).submatches = none := h
  rw [Match.resolve?, hsub]
  exact Keyed.get?_insert_self i id r.bindings

/-- An identifier of a group resolves to the node where the alternatives were found. The first of
them is asked for its root, and all of them have the same one. -/
theorem resolve?_addAlternatives_self {r : Match} {i : String} {id : NodeId} {ms : List Match}
    (hne : ms ≠ []) (hroot : ∀ m ∈ ms, m.root = id) :
    (r.addAlternatives i ms).resolve? i = some id := by
  cases ms with
  | nil => exact absurd rfl hne
  | cons first rest =>
    have hsub : Keyed.get? i (r.addAlternatives i (first :: rest)).submatches
        = some (first :: rest) := Keyed.get?_insert_self i _ r.submatches
    rw [Match.resolve?, hsub]
    exact congrArg some (hroot first List.mem_cons_self)

end Match

namespace Shape

variable {b : Block} {inc : Inclusion}

/-- What is said about an identifier does not depend on the sets of nodes, which may grow on the
way. -/
theorem persists_sameAt (i : String) : Persists fun r r' => Match.SameAt r r' i where
  refl _ := ⟨rfl, rfl⟩
  trans _ _ _ := Match.SameAt.trans
  cover _ _ := ⟨rfl, rfl⟩
  read _ _ := ⟨rfl, rfl⟩

/-- Steps that enter something under some identifiers leave all others as they are. -/
theorem Steps.sameAt {idents : List String} {i : String} (hi : ¬ i ∈ idents) {r r' : Match}
    (h : Steps b inc idents r r') : Match.SameAt r r' i := by
  refine h.keeps (persists_sameAt i) (fun j hj r id => ?_) fun j hj r ms => ?_
  · have hne : some j ≠ some i := fun heq => hi (Option.some.inj heq ▸ hj)
    exact Match.sameAt_bind hne
  · have hne : i ≠ j := fun heq => hi (heq ▸ hj)
    exact ⟨Keyed.get?_insert_of_ne hne ms r.submatches, rfl⟩

/-- **Matching a shape says nothing new about identifiers it does not introduce.** So what was
settled before the attempt is settled after it, to the same nodes. -/
theorem attempt_sameAt {i : String} (s : Shape) (hi : ¬ i ∈ s.idents) :
    ∀ id r r', attempt b inc s id r = .ok ⟨true, r'⟩ → Match.SameAt r r' i :=
  fun id r r' h => (attempt_steps s id r r' h).sameAt hi

/-- The same for the arguments of an operation, matched one after the other. -/
theorem attemptAll_sameAt {i : String} {ss : List Shape} (hi : ¬ i ∈ identsList ss) :
    ∀ ids r r', attemptAll b inc ss ids r = .ok ⟨true, r'⟩ → Match.SameAt r r' i :=
  fun ids r r' h => (attemptAll_steps (fun s _ => attempt_steps s) ids r r' h).sameAt hi

/-! ## Settled identifiers -/

mutual

/-- The identifiers that are settled once a shape has been matched, given those settled before;
nothing if the shape refers to an identifier that is not settled. -/
def settle (known : List String) : Shape → Option (List String)
  | .node ident _ op args =>
    match settleAll known args with
    | none => none
    | some inner =>
      -- Below a commutative operation the identifiers may stand for either operand.
      if op.isCommutative && args.length == 2 then some (ident.toList ++ known)
      else some (ident.toList ++ inner)
  | .producer ident _ | .constant ident _ _ => some (ident.toList ++ known)
  | .inclusion ident _ => some (ident :: known)
  | .backreference ident => if ident ∈ known then some known else none

/-- The same for several shapes, matched one after the other. -/
def settleAll (known : List String) : List Shape → Option (List String)
  | [] => some known
  | s :: ss =>
    match settle known s with
    | none => none
    | some known' => settleAll known' ss

end

/-- Every reference goes to an identifier that no choice of order can move. -/
def Settled (s : Shape) : Prop := (settle [] s).isSome = true

instance (s : Shape) : Decidable s.Settled := inferInstanceAs (Decidable (_ = true))

/-- Shapes are settled one after the other, each with what those before it have settled. A reference
back may therefore go to a sibling on its left. -/
theorem settleAll_cons_inv {s : Shape} {ss : List Shape} {known known' : List String}
    (h : settleAll known (s :: ss) = some known') :
    ∃ known₁, settle known s = some known₁ ∧ settleAll known₁ ss = some known' := by
  rw [settleAll] at h
  split at h
  · cases h
  · rename_i known₁ hs
    exact ⟨known₁, hs, h⟩

/-- What settling an operation comes to. If its arguments may be tried in two orders, then only its
own identifier counts as settled; otherwise those of its arguments do too. -/
theorem settle_node_inv {ident : Option String} {ty : Option ValueType} {op : Operation}
    {args : List Shape} {known known' : List String}
    (h : settle known (.node ident ty op args) = some known') :
    ∃ inner, settleAll known args = some inner
      ∧ ((op.isCommutative = true ∧ args.length = 2 ∧ known' = ident.toList ++ known)
          ∨ (¬ (op.isCommutative = true ∧ args.length = 2) ∧ known' = ident.toList ++ inner)) := by
  rw [settle] at h
  split at h
  · cases h
  · rename_i inner hinner
    split at h
    · -- Two orders: which argument an identifier was captured for is open, so only the top is
      -- settled.
      rename_i hcomm
      simp only [Bool.and_eq_true, beq_iff_eq] at hcomm
      cases h
      exact ⟨inner, hinner, .inl ⟨hcomm.1, hcomm.2, rfl⟩⟩
    · rename_i hcomm
      simp only [Bool.and_eq_true, beq_iff_eq] at hcomm
      cases h
      exact ⟨inner, hinner, .inr ⟨hcomm, rfl⟩⟩

/-- What several shapes settle was settled before or is introduced by one of them. The induction is
on the shapes, with the statement for each of them as a hypothesis. -/
theorem mem_of_mem_settleAll {ss : List Shape}
    (ih : ∀ s ∈ ss, ∀ known known', settle known s = some known' →
      ∀ i ∈ known', i ∈ known ∨ i ∈ s.idents) :
    ∀ known known', settleAll known ss = some known' →
      ∀ i ∈ known', i ∈ known ∨ i ∈ identsList ss := by
  induction ss with
  | nil =>
    intro known known' h i hi
    cases h
    exact .inl hi
  | cons s ss ihss =>
    intro known known' h i hi
    obtain ⟨known₁, hs, hss⟩ := settleAll_cons_inv h
    rw [identsList_cons, List.mem_append]
    -- An identifier settled by the others was settled after the first shape, or they introduce it.
    rcases ihss (fun a ha => ih a (List.mem_cons_of_mem s ha)) known₁ known' hss i hi with h₁ | h₁
    · rcases ih s List.mem_cons_self known known₁ hs i h₁ with h₂ | h₂
      · exact .inl h₂
      · exact .inr (.inl h₂)
    · exact .inr (.inr h₁)

/-- What a shape settles it introduces, unless it was settled before. A reference settles nothing,
and for an operation with two orders the identifiers of its arguments are dropped again. -/
theorem mem_of_mem_settle (s : Shape) : ∀ known known', settle known s = some known' →
    ∀ i ∈ known', i ∈ known ∨ i ∈ s.idents := by
  induction s using Shape.induction with
  | node ident ty op args ih =>
    intro known known' h i hi
    obtain ⟨inner, hinner, ⟨-, -, rfl⟩ | ⟨-, rfl⟩⟩ := settle_node_inv h
    · rw [List.mem_append] at hi
      rw [idents_node, List.mem_append]
      rcases hi with hi | hi
      · exact .inr (.inl hi)
      · exact .inl hi
    · rw [List.mem_append] at hi
      rw [idents_node, List.mem_append]
      rcases hi with hi | hi
      · exact .inr (.inl hi)
      · rcases mem_of_mem_settleAll ih known inner hinner i hi with h₁ | h₁
        · exact .inl h₁
        · exact .inr (.inr h₁)
  | producer | constant | inclusion =>
    intro known known' h i hi
    rw [settle, Option.some.injEq] at h
    subst h
    simpa [idents, subshapes, ident?, or_comm] using hi
  | backreference ident =>
    intro known known' h i hi
    rw [settle] at h
    split at h
    · cases h
      exact .inl hi
    · cases h

/-! ## From embeddings to attempts -/

/-- The settled identifiers resolve to the nodes they stand for. -/
def Agrees (E : String → NodeId → Prop) (known : List String) (r : Match) : Prop :=
  ∀ i ∈ known, ∃ id, r.resolve? i = some id ∧ E i id

/-- Nothing is said yet about the identifiers of a shape, and none of them is settled. -/
def Fresh (idents known : List String) (r : Match) : Prop :=
  ∀ i ∈ idents, ¬ i ∈ known ∧ Keyed.get? i r.submatches = none

/-- Inclusions answer at every node, with records of that very node. -/
structure Answers (b : Block) (inc : Inclusion) : Prop where
  total : ∀ g id, id < b.size → ∃ ms, inc g id = .ok ms
  rooted : inc.Rooted

/-- A shape that lies on a block by an embedding is matched there, from any record that agrees
with the embedding on what the shape may refer to. -/
def Found (b : Block) (inc : Inclusion) (E : String → NodeId → Prop) (s : Shape) : Prop :=
  ∀ e known known' r, s.Everywhere e (LiesOn b (Admits inc) E) →
    (∀ i k, s.Somewhere e (fun s' id => s'.ident? = some i ∧ id = k) → E i k) →
    settle known s = some known' → s.idents.Nodup → Fresh s.idents known r →
    Agrees E known r → ∃ r', attempt b inc s (e []) r = .ok ⟨true, r'⟩ ∧ Agrees E known' r'

variable {E : String → NodeId → Prop}

/-- Records that say the same about the settled identifiers agree with the same embedding. -/
theorem Agrees.sameAt {known : List String} {r r' : Match} (h : Agrees E known r)
    (hsame : ∀ i ∈ known, Match.SameAt r r' i) : Agrees E known r' := by
  intro i hi
  obtain ⟨id, hres, hE⟩ := h i hi
  exact ⟨id, (hsame i hi).resolve?.trans hres, hE⟩

/-- Capturing a node settles the identifier, and leaves those settled before it with their nodes,
because the identifier is new. -/
theorem Agrees.bind {known : List String} {r : Match} {ident : Option String} {id : NodeId}
    (h : Agrees E known r)
    (hfresh : ∀ i, ident = some i → ¬ i ∈ known ∧ Keyed.get? i r.submatches = none)
    (hE : ∀ i, ident = some i → E i id) : Agrees E (ident.toList ++ known) (r.bind ident id) := by
  intro i hi
  rw [List.mem_append, Option.mem_toList] at hi
  rcases hi with hi | hi
  · obtain rfl : ident = some i := hi
    exact ⟨id, Match.resolve?_bind_self (hfresh i rfl).2, hE i rfl⟩
  · have hne : ident ≠ some i := fun hid => (hfresh i hid).1 hi
    obtain ⟨k, hres, hk⟩ := h i hi
    exact ⟨k, (Match.sameAt_bind hne).resolve?.trans hres, hk⟩

/-- Capturing the node that the top of a shape lies on settles what the top introduces. -/
theorem Agrees.bind_top {known : List String} {r : Match} {s : Shape} {e : Embedding}
    (h : Agrees E known r) (hfresh : Fresh s.idents known r)
    (hintro : ∀ i k, s.Somewhere e (fun s' id => s'.ident? = some i ∧ id = k) → E i k) :
    Agrees E (s.ident?.toList ++ known) (r.bind s.ident? (e [])) :=
  h.bind (fun i hi => hfresh i (mem_idents_of_at? (at?_nil _) hi))
    fun i hi => hintro i (e []) ⟨[], s, at?_nil _, hi, rfl⟩

/-- **Arguments are found one by one.** Each of them lies where its own embedding says; it finds the
identifiers settled before it, and its own are new. The induction is on the arguments, with the
records and what is settled left open. -/
theorem attemptAll_found {ss : List Shape} (ih : ∀ s ∈ ss, Found b inc E s) :
    ∀ (es : Nat → Embedding) ids known known' r, ss.length = ids.length →
      (∀ (k : Nat) (x : NodeId), ids[k]? = some x → es k [] = x) →
      (∀ (k : Nat) (a : Shape), ss[k]? = some a → a.Everywhere (es k) (LiesOn b (Admits inc) E)) →
      (∀ (k : Nat) (a : Shape), ss[k]? = some a →
        ∀ i x, a.Somewhere (es k) (fun s' id => s'.ident? = some i ∧ id = x) → E i x) →
      settleAll known ss = some known' → (identsList ss).Nodup → Fresh (identsList ss) known r →
      Agrees E known r → ∃ r', attemptAll b inc ss ids r = .ok ⟨true, r'⟩ ∧ Agrees E known' r' := by
  induction ss with
  | nil =>
    intro es ids known known' r hlen _ _ _ hsettle _ _ hagree
    cases hsettle
    cases ids with
    | nil => exact ⟨r, rfl, hagree⟩
    | cons => cases hlen
  | cons s ss ihss =>
    intro es ids known known' r hlen htop hlies hintro hsettle hnd hfresh hagree
    cases ids with
    | nil => cases hlen
    | cons id ids =>
      obtain ⟨known₁, hs, hss⟩ := settleAll_cons_inv hsettle
      rw [identsList_cons, List.nodup_append] at hnd
      obtain ⟨hnds, hndss, hdisj⟩ := hnd
      rw [identsList_cons] at hfresh
      -- The first argument is found, and what it settles is settled for the others.
      obtain ⟨r₁, hr₁, hagree₁⟩ := ih s List.mem_cons_self (es 0) known known₁ r (hlies 0 s rfl)
        (hintro 0 s rfl) hs hnds (fun i hi => hfresh i (List.mem_append_left _ hi)) hagree
      rw [htop 0 id rfl] at hr₁
      -- Nothing is said yet about the identifiers of the others: the first argument introduces
      -- different ones.
      have hfresh₁ : Fresh (identsList ss) known₁ r₁ := by
        intro i hi
        have hnot : ¬ i ∈ s.idents := fun his => hdisj i his i hi rfl
        obtain ⟨hknown, hsub⟩ := hfresh i (List.mem_append_right _ hi)
        refine ⟨fun hi₁ => ?_, (attempt_sameAt s hnot id r r₁ hr₁).1.trans hsub⟩
        rcases mem_of_mem_settle s known known₁ hs i hi₁ with h | h
        · exact hknown h
        · exact hnot h
      obtain ⟨r', hr', hagree'⟩ := ihss (fun a ha => ih a (List.mem_cons_of_mem s ha))
        (fun k => es (k + 1)) ids known₁ known' r₁ (by simpa using hlen)
        (fun k x hx => htop (k + 1) x (by simpa using hx))
        (fun k a ha => hlies (k + 1) a (by simpa using ha))
        (fun k a ha => hintro (k + 1) a (by simpa using ha)) hss hndss hfresh₁ hagree₁
      refine ⟨r', ?_, hagree'⟩
      rw [attemptAll, hr₁, ok_bind, if_pos rfl]
      exact hr'

/-- An operation is matched if its arguments are, in one of the orders it allows; which of the two
it was, the record does not say. If the first order succeeds the second is never tried, although the
embedding may be the one for the second. -/
theorem attempt_node_of_args {ident : Option String} {ty : Option ValueType} {op : Operation}
    {args : List Shape} {id : NodeId} {n : Node} {r r₁ : Match} {operands : List NodeId}
    (hty : b.hasType id ty = true) (hn : b.node? id = some n) (hop : n.op = op)
    (hlen : n.inputs.length = args.length)
    (horder : operands = n.inputs
      ∨ (op.isCommutative = true ∧ args.length = 2 ∧ operands = n.inputs.reverse))
    (hall : attemptAll b inc args operands r = .ok ⟨true, r₁⟩)
    (hfirst : ∃ a, attemptAll b inc args n.inputs r = .ok a) :
    ∃ operands' r', attemptAll b inc args operands' r = .ok ⟨true, r'⟩
      ∧ (operands' = operands ∨ (op.isCommutative = true ∧ args.length = 2))
      ∧ attempt b inc (.node ident ty op args) id r
          = .ok ⟨true, (r'.cover id).bind ident id⟩ := by
  have hcond : (b.hasType id ty && n.op == op && n.inputs.length == args.length) = true := by
    simp [hty, hop, hlen]
  -- The operands in their own order are tried first, whatever the embedding says.
  obtain ⟨⟨matched, r₀⟩, h₀⟩ := hfirst
  cases matched with
  | true =>
    refine ⟨n.inputs, r₀, h₀, ?_, ?_⟩
    · rcases horder with rfl | ⟨hcomm, htwo, -⟩
      · exact .inl rfl
      · exact .inr ⟨hcomm, htwo⟩
    · rw [attempt, Block.node_eq_ok.2 hn, ok_bind, if_pos hcond, h₀, ok_bind, if_pos rfl]
      rfl
  | false =>
    rcases horder with rfl | ⟨hcomm, htwo, rfl⟩
    · rw [hall] at h₀
      cases h₀
    · -- The first order has failed, so the embedding is the one for the other order, which is tried
      -- now.
      refine ⟨n.inputs.reverse, r₁, hall, .inl rfl, ?_⟩
      have hswap : (op.isCommutative && args.length == 2) = true := by simp [hcomm, htwo]
      rw [attempt, Block.node_eq_ok.2 hn, ok_bind, if_pos hcond, h₀, ok_bind,
        if_neg Bool.false_ne_true, if_pos hswap, hall, ok_bind, if_pos rfl]
      rfl

/-- Where nothing points outside and inclusions answer, every attempt comes to an end. -/
theorem serves {s : Shape} {id : NodeId} (hb : b.OperandsInRange) (hinc : Answers b inc)
    (hid : id < b.size) : Served b inc s id :=
  fun _ _ g k _ hbelow => hinc.total g k (lt_size_of_below hb hid hbelow)

/-- An operation is matched if its arguments are, in whatever order. This is where settledness is
needed: if the other order is the one that is found, the identifiers of the arguments lie elsewhere,
and nothing that comes after may refer to them. -/
theorem found_node {ident : Option String} {ty : Option ValueType} {op : Operation}
    {args : List Shape} (hb : b.OperandsInRange) (hinc : Answers b inc)
    (ih : ∀ a ∈ args, Found b inc E a) : Found b inc E (.node ident ty op args) := by
  intro e known known' r hlies hintro hsettle hnd hfresh hagree
  obtain ⟨⟨hty, n, hn, hop, hlen, horder⟩, hargs⟩ := everywhere_node.1 hlies
  obtain ⟨inner, hinner, hknown'⟩ := settle_node_inv hsettle
  rw [idents_node, List.nodup_append] at hnd
  obtain ⟨-, hndargs, hdisj⟩ := hnd
  rw [idents_node] at hfresh
  have hfreshargs : Fresh (identsList args) known r := fun i hi =>
    hfresh i (List.mem_append_right _ hi)
  have hbelow : ∀ (k : Nat) (a : Shape), args[k]? = some a → ∀ i x,
      a.Somewhere (fun pos => e (k :: pos)) (fun s' id => s'.ident? = some i ∧ id = x) →
      E i x := fun k a ha i x hsome => hintro i x (somewhere_node.2 (.inr ⟨k, a, ha, hsome⟩))
  have hfind : ∀ operands : List NodeId, args.length = operands.length →
      (∀ (k : Nat) (x : NodeId), operands[k]? = some x → e [k] = x) →
      ∃ r₁, attemptAll b inc args operands r = .ok ⟨true, r₁⟩ ∧ Agrees E inner r₁ :=
    fun operands hlen' htop => attemptAll_found ih (fun k pos => e (k :: pos)) operands known
      inner r hlen' htop hargs hbelow hinner hndargs hfreshargs hagree
  have hfirst : ∃ a, attemptAll b inc args n.inputs r = .ok a := by
    have hrange : ∀ x ∈ n.inputs, x < b.size := fun x hx => hb _ x ⟨n, hn, hx⟩
    exact attemptAll_total (fun s' _ id' r' hid' => attempt_total hb s' id' r' hid') n.inputs r
      hrange fun s' _ x hx => serves hb hinc (hrange x hx)
  -- The order of the embedding works, so some order does.
  obtain ⟨operands, r₁, horder', hall, hagree₁⟩ : ∃ (operands : List NodeId) (r₁ : Match),
      (operands = n.inputs
        ∨ (op.isCommutative = true ∧ args.length = 2 ∧ operands = n.inputs.reverse))
      ∧ attemptAll b inc args operands r = .ok ⟨true, r₁⟩ ∧ Agrees E inner r₁ := by
    rcases horder with htop | ⟨hcomm, htwo, htop⟩
    · obtain ⟨r₁, hall, hagree₁⟩ := hfind n.inputs hlen.symm htop
      exact ⟨n.inputs, r₁, .inl rfl, hall, hagree₁⟩
    · obtain ⟨r₁, hall, hagree₁⟩ := hfind n.inputs.reverse (by simp [hlen]) htop
      exact ⟨n.inputs.reverse, r₁, .inr ⟨hcomm, hlen.symm.trans htwo, rfl⟩, hall, hagree₁⟩
  obtain ⟨operands', r', hall', hsame, hattempt⟩ :=
    @attempt_node_of_args b inc ident ty op args _ n r r₁ operands hty hn hop hlen horder' hall
      hfirst
  refine ⟨_, hattempt, ?_⟩
  have hframe : ∀ i, ¬ i ∈ identsList args → Match.SameAt r r' i := fun i hi =>
    attemptAll_sameAt hi operands' r r' hall'
  have hident : ∀ i, ident = some i → ¬ i ∈ identsList args := fun i hi hmem =>
    hdisj i (by simp [hi]) i hmem rfl
  have hsub : ∀ i, ident = some i → Keyed.get? i (r'.cover (e [])).submatches = none :=
    fun i hi => (hframe i (hident i hi)).1.trans
      (hfresh i (List.mem_append_left _ (by simp [hi]))).2
  have hself : ∀ i, ident = some i → E i (e []) := fun i hi =>
    hintro i _ (somewhere_node.2 (.inl ⟨hi, rfl⟩))
  rcases hknown' with ⟨hcomm, htwo, rfl⟩ | ⟨hfixed, rfl⟩
  · -- Whatever order was taken, the settled identifiers were introduced outside.
    have hkept : Agrees E known (r'.cover (e [])) := hagree.sameAt fun i hi =>
      hframe i fun hmem => (hfreshargs i hmem).1 hi
    refine hkept.bind (fun i hi => ⟨?_, hsub i hi⟩) hself
    exact (hfresh i (List.mem_append_left _ (by simp [hi]))).1
  · -- There is no other order, so the record is the one that agrees with the embedding.
    obtain rfl : operands' = operands := hsame.resolve_right hfixed
    rw [hall] at hall'
    cases hall'
    have hkept : Agrees E inner (r₁.cover (e [])) := hagree₁
    refine hkept.bind (fun i hi => ⟨fun hmem => ?_, hsub i hi⟩) hself
    rcases mem_of_mem_settleAll (fun s' _ => mem_of_mem_settle s') known inner hinner i hmem
      with h | h
    · exact (hfresh i (List.mem_append_left _ (by simp [hi]))).1 h
    · exact hident i hi h

/-- A shape for a value is matched where it lies, and captures the node. Nothing depends on what has
been recorded before. -/
theorem found_producer {ident : Option String} {ty : Option ValueType} :
    Found b inc E (.producer ident ty) := by
  intro e known known' r hlies hintro hsettle hnd hfresh hagree
  obtain ⟨hty, n, hn, hprod⟩ := (everywhere_leaf fun _ _ => rfl).1 hlies
  rw [settle, Option.some.injEq] at hsettle
  subst hsettle
  refine ⟨(r.bind ident (e [])).read (e []), ?_, ?_⟩
  · rw [attempt, Block.node_eq_ok.2 hn, ok_bind, if_pos (by simp [hty, hprod])]
    rfl
  · have hkept := hagree.bind_top hfresh hintro
    exact hkept

/-- A shape for a constant is matched where it lies. If it asks for a number, the constant has that
one, as lying there says so. -/
theorem found_constant {ident : Option String} {ty : Option ValueType} {value : Option Int64} :
    Found b inc E (.constant ident ty value) := by
  intro e known known' r hlies hintro hsettle hnd hfresh hagree
  obtain ⟨hty, n, hn, hop, hprod, hvalue⟩ := (everywhere_leaf fun _ _ => rfl).1 hlies
  rw [settle, Option.some.injEq] at hsettle
  subst hsettle
  -- Either no number is asked for or it is the one of the constant.
  have hlit : (value.isNone || n.literal? == value) = true := by
    cases value with
    | none => rfl
    | some v => simp [hvalue v rfl]
  refine ⟨(r.bind ident (e [])).cover (e []), ?_, ?_⟩
  · rw [attempt, Block.node_eq_ok.2 hn, ok_bind,
      if_pos (by simp only [hty, hop, hprod, hlit, beq_self_eq_true, Bool.and_self])]
    rfl
  · have hkept := hagree.bind_top hfresh hintro
    exact hkept

/-- A group is matched where some alternative of it is. Its identifier then resolves to the node,
since the alternatives are records of that very node. -/
theorem found_inclusion {ident group : String} (hinc : Answers b inc) :
    Found b inc E (.inclusion ident group) := by
  intro e known known' r hlies hintro hsettle hnd hfresh hagree
  obtain ⟨hid, ms, hms, hne⟩ := (everywhere_leaf fun _ _ => rfl).1 hlies
  rw [settle, Option.some.injEq] at hsettle
  subst hsettle
  obtain ⟨n, hn⟩ := Block.node?_isSome_iff.2 hid
  refine ⟨r.addAlternatives ident ms, ?_, fun i hi => ?_⟩
  · rw [attempt, Block.node_eq_ok.2 hn, ok_bind, hms, ok_bind, if_neg (by simpa using hne)]
    rfl
  · -- The identifier of the group is settled now, and all others are as they were.
    by_cases hii : i = ident
    · subst hii
      exact ⟨e [], Match.resolve?_addAlternatives_self hne (hinc.rooted group _ ms hms),
        hintro i (e []) ((somewhere_leaf fun _ _ => rfl).2 ⟨rfl, rfl⟩)⟩
    · have hsame : Match.SameAt r (r.addAlternatives ident ms) i :=
        ⟨Keyed.get?_insert_of_ne hii ms r.submatches, rfl⟩
      obtain ⟨k, hres, hk⟩ := hagree i (List.mem_of_ne_of_mem hii hi)
      exact ⟨k, hsame.resolve?.trans hres, hk⟩

/-- A reference is matched where it lies, because the identifier is settled: it resolves to the one
node that the embedding has for it. -/
theorem found_backreference {ident : String} (hE : ∀ i x y, E i x → E i y → x = y) :
    Found b inc E (.backreference ident) := by
  intro e known known' r hlies hintro hsettle hnd hfresh hagree
  obtain ⟨hid, href⟩ := (everywhere_leaf fun _ _ => rfl).1 hlies
  obtain ⟨n, hn⟩ := Block.node?_isSome_iff.2 hid
  rw [settle] at hsettle
  split at hsettle
  · rename_i hknown
    cases hsettle
    obtain ⟨k, hres, hk⟩ := hagree ident hknown
    rw [hE ident k (e []) hk href] at hres
    refine ⟨r, ?_, hagree⟩
    rw [attempt, Block.node_eq_ok.2 hn, ok_bind, if_pos (by simp [hres])]
    rfl
  · cases hsettle

/-- **Where a settled shape lies, it is matched.** The induction is on the shape; each kind of shape
has its own lemma above, and only operations have something below them. -/
theorem attempt_complete (hb : b.OperandsInRange) (hinc : Answers b inc)
    (hE : ∀ i x y, E i x → E i y → x = y) (s : Shape) : Found b inc E s := by
  induction s using Shape.induction with
  | node ident ty op args ih => exact found_node hb hinc ih
  | producer ident ty => exact found_producer
  | constant ident ty value => exact found_constant
  | inclusion ident group => exact found_inclusion hinc
  | backreference ident => exact found_backreference hE

end Shape

end TileSelect
