import TileSelect.Proofs.Match.Exactness
import TileSelect.Proofs.Pattern.Scope
/-!
Exchanged operands.

A commutative operation is tried in both orders, so one would like to say that the order in which
a block lists its operands does not matter to matching. It does: the first order that works is
kept, and a reference back that comes later, outside of the operation, may need the other one. With
the operands the other way round in the block, that other order is the first. The pattern
`cancelling` below matches a block and does not match it with the operands of one sum exchanged.

For settled references there is no such dependence. The proof compares two runs, on the block and on
the exchanged block, and does not refer to embeddings: the runs need not end everywhere, only here.
What they share is the nodes of the settled identifiers. At a commutative operation the two runs
may take different orders. Either way they agree afterwards on what was settled before, which is
all that is settled then; and if one run finds no order, it has tried the one that the other took.
-/

set_option autoImplicit false

namespace TileSelect

open Relation

/-! ## The exchange -/

/-- The node with its two operands exchanged, if its operation is commutative. -/
def Node.exchange (n : Node) : Node :=
  if n.op.isCommutative && n.inputs.length == 2 then { n with inputs := n.inputs.reverse } else n

/-- The same node, or with its operands exchanged. -/
structure Node.Exchanges (n n' : Node) : Prop where
  op : n'.op = n.op
  result : n'.result = n.result
  imm : n'.imm = n.imm
  inputs : n'.inputs = n.inputs
    ∨ (n.op.isCommutative = true ∧ n.inputs.length = 2 ∧ n'.inputs = n.inputs.reverse)

/-- A node whose operands are exchanged is the same node, or has exchanged operands. Where the
operation is not commutative, or there are not two operands, it is the same. -/
theorem Node.exchanges_exchange (n : Node) : n.Exchanges n.exchange := by
  rw [Node.exchange]
  split
  · rename_i h
    rw [Bool.and_eq_true, beq_iff_eq] at h
    exact ⟨rfl, rfl, rfl, .inr ⟨h.1, h.2, rfl⟩⟩
  · exact ⟨rfl, rfl, rfl, .inl rfl⟩

theorem Node.Exchanges.mem_inputs {n n' : Node} (h : n.Exchanges n') {x : NodeId} :
    x ∈ n'.inputs ↔ x ∈ n.inputs := by
  rcases h.inputs with heq | ⟨-, -, heq⟩ <;> rw [heq]
  exact List.mem_reverse

theorem Node.Exchanges.length_inputs {n n' : Node} (h : n.Exchanges n') :
    n'.inputs.length = n.inputs.length := by
  rcases h.inputs with heq | ⟨-, -, heq⟩ <;> rw [heq]
  exact List.length_reverse

theorem Node.Exchanges.isProducer {n n' : Node} (h : n.Exchanges n') :
    n'.isProducer = n.isProducer := by
  rw [Node.isProducer, Node.isProducer, Node.value?, Node.value?, h.result]

theorem Node.Exchanges.literal? {n n' : Node} (h : n.Exchanges n') : n'.literal? = n.literal? := by
  rw [Node.literal?, Node.literal?, h.op, h.imm]

namespace Block

/-- The block with the operands of some nodes exchanged, as far as their operations are
commutative. -/
def exchange (b : Block) (chosen : NodeId → Bool) : Block :=
  { b with nodes := b.nodes.mapIdx fun id n => if chosen id then n.exchange else n }

/-- The same nodes, some of them with their operands exchanged, and the same widths. -/
structure Exchanges (b b' : Block) : Prop where
  types : b'.types = b.types
  size : b'.size = b.size
  node? : ∀ id n, b.node? id = some n → ∃ n', b'.node? id = some n' ∧ n.Exchanges n'

/-- **A block with operands exchanged is one with operands exchanged.** What comes after is about
any two blocks that are so related. -/
theorem exchanges_exchange (b : Block) (chosen : NodeId → Bool) :
    b.Exchanges (b.exchange chosen) where
  types := rfl
  size := Array.size_mapIdx
  node? id n hn := by
    have hnode : (b.exchange chosen).node? id = some (if chosen id then n.exchange else n) := by
      rw [Block.node?] at hn
      rw [Block.node?, exchange, Array.getElem?_mapIdx, hn]
      rfl
    refine ⟨_, hnode, ?_⟩
    -- The node was chosen, and then it is exchanged, or it is the same.
    split
    · exact n.exchanges_exchange
    · exact ⟨rfl, rfl, rfl, .inl rfl⟩

namespace Exchanges

variable {b b' : Block} (hex : b.Exchanges b')
include hex

/-- A node of the exchanged block is a node of the block, or has its operands exchanged. -/
theorem node?_inv {id : NodeId} {n' : Node} (hn' : b'.node? id = some n') :
    ∃ n, b.node? id = some n ∧ n.Exchanges n' := by
  have hid : id < b.size := hex.size ▸ node?_isSome_iff.1 ⟨n', hn'⟩
  obtain ⟨n, hn⟩ := node?_isSome_iff.2 hid
  obtain ⟨n'', hn'', hnode⟩ := hex.node? id n hn
  rw [hn', Option.some.injEq] at hn''
  exact ⟨n, hn, hn'' ▸ hnode⟩

/-- Nodes that are looked up under one number in both blocks are the same up to an exchange. -/
theorem of_node {id : NodeId} {n n' : Node} (hn : b.node id = .ok n) (hn' : b'.node id = .ok n') :
    n.Exchanges n' := by
  obtain ⟨n'', hn'', hnode⟩ := hex.node? id n (node_eq_ok.1 hn)
  rw [node_eq_ok.1 hn', Option.some.injEq] at hn''
  exact hn'' ▸ hnode

/-- The value that a node yields does not depend on the order of its operands, and so its width does
not, whichever nodes have been exchanged. -/
theorem typeOf? (id : NodeId) : b'.typeOf? id = b.typeOf? id := by
  -- The widths are stored with the block and are the same for both.
  have hwidth : b'.widthOf? = b.widthOf? := by
    funext v
    rw [Block.widthOf?, Block.widthOf?, hex.types]
  cases hn : b.node? id with
  | some n =>
    obtain ⟨n', hn', hnode⟩ := hex.node? id n hn
    have hvalue : n'.value? = n.value? := by rw [Node.value?, Node.value?, hnode.result]
    rw [Block.typeOf?, Block.typeOf?, hn, hn']
    dsimp only
    rw [hvalue, hwidth]
  | none =>
    cases hn' : b'.node? id with
    | none => rw [Block.typeOf?, Block.typeOf?, hn, hn']
    | some n' =>
      obtain ⟨n, hn'', -⟩ := hex.node?_inv hn'
      rw [hn] at hn''
      cases hn''

/-- The test of a width has the same outcome on both blocks. -/
theorem hasType (id : NodeId) (ty : Option ValueType) : b'.hasType id ty = b.hasType id ty := by
  cases ty with
  | none => rfl
  | some t => rw [Block.hasType, Block.hasType, hex.typeOf?]

/-- A node reads the same nodes, in whatever order. All that is said in terms of reading is
therefore the same on both blocks. -/
theorem operand : b'.Operand = b.Operand := by
  funext x y
  refine propext ⟨?_, ?_⟩
  · rintro ⟨n', hn', hy⟩
    obtain ⟨n, hn, hnode⟩ := hex.node?_inv hn'
    exact ⟨n, hn, hnode.mem_inputs.1 hy⟩
  · rintro ⟨n, hn, hy⟩
    obtain ⟨n', hn', hnode⟩ := hex.node? x n hn
    exact ⟨n', hn', hnode.mem_inputs.2 hy⟩

/-- No operand points outside after the exchange if none did before. -/
theorem operandsInRange (hb : b.OperandsInRange) : b'.OperandsInRange := by
  rw [OperandsInRange, hex.operand, hex.size]
  exact hb

/-- No cycle comes about by the exchange, since every node reads the same nodes. -/
theorem operandsAcyclic (hb : b.OperandsAcyclic) : b'.OperandsAcyclic := by
  rw [OperandsAcyclic, hex.operand]
  exact hb

end Exchanges

end Block

/-! ## Two runs -/

namespace Shape

variable {b b' : Block} {inc inc' : Inclusion}

/-- The orders in which the arguments of an operation are tried on the operands of a node. -/
def Tried (op : Operation) (args : List Shape) (inputs operands : List NodeId) : Prop :=
  operands = inputs ∨ (op.isCommutative = true ∧ args.length = 2 ∧ operands = inputs.reverse)

/-- Exchanging operands does not change which orders are tried: of two operands both orders are, and
of all others only the one that there is. -/
theorem tried_exchange {n n' : Node} (hnode : n.Exchanges n') {args : List Shape}
    (hlen : n.inputs.length = args.length) {operands : List NodeId} :
    Tried n.op args n'.inputs operands ↔ Tried n.op args n.inputs operands := by
  rcases hnode.inputs with heq | ⟨hcomm, htwo, heq⟩
  · rw [heq]
  · -- The operands were exchanged, so there are two of them and both orders are tried on both
    -- blocks.
    have hargs : args.length = 2 := hlen.symm.trans htwo
    rw [Tried, Tried, heq, List.reverse_reverse]
    constructor
    · rintro (h | ⟨-, -, h⟩)
      · exact .inr ⟨hcomm, hargs, h⟩
      · exact .inl h
    · rintro (h | ⟨-, -, h⟩)
      · exact .inr ⟨hcomm, hargs, h⟩
      · exact .inl h

/-- How an attempt at an operation ends: the node does not fit, or some order of the operands was
found to match, or all of them were tried and none does. In this form the first order has no
privilege. -/
theorem attempt_node_cases {ident : Option String} {ty : Option ValueType} {op : Operation}
    {args : List Shape} {id : NodeId} {r : Match} {a : Attempt}
    (h : attempt b inc (.node ident ty op args) id r = .ok a) :
    ∃ n, b.node? id = some n
      ∧ ((¬ (b.hasType id ty = true ∧ n.op = op ∧ n.inputs.length = args.length)
            ∧ a.matched = false)
        ∨ ((b.hasType id ty = true ∧ n.op = op ∧ n.inputs.length = args.length)
          ∧ ((∃ operands r₁, Tried op args n.inputs operands
                ∧ attemptAll b inc args operands r = .ok ⟨true, r₁⟩
                ∧ a = ⟨true, (r₁.cover id).bind ident id⟩)
            ∨ (a.matched = false ∧ ∀ operands, Tried op args n.inputs operands →
                ∃ r₁, attemptAll b inc args operands r = .ok ⟨false, r₁⟩)))) := by
  rw [attempt, bind_eq_ok] at h
  obtain ⟨n, hn, h⟩ := h
  refine ⟨n, Block.node_eq_ok.1 hn, ?_⟩
  split at h
  · rename_i hfits
    simp only [Bool.and_eq_true, beq_iff_eq, and_assoc] at hfits
    refine .inr ⟨hfits, ?_⟩
    -- The operands in their own order.
    obtain ⟨⟨matched, r₁⟩, hfirst, h⟩ := bind_eq_ok.1 h
    cases matched with
    | true =>
      cases h
      exact .inl ⟨n.inputs, r₁, .inl rfl, hfirst, rfl⟩
    | false =>
      rw [if_neg Bool.false_ne_true] at h
      split at h
      · rename_i hcomm
        rw [Bool.and_eq_true, beq_iff_eq] at hcomm
        -- The other order, if there is one.
        obtain ⟨⟨matched, r₂⟩, hsecond, h⟩ := bind_eq_ok.1 h
        cases matched with
        | true =>
          cases h
          exact .inl ⟨n.inputs.reverse, r₂, .inr ⟨hcomm.1, hcomm.2, rfl⟩, hsecond, rfl⟩
        | false =>
          cases h
          refine .inr ⟨rfl, ?_⟩
          rintro operands (rfl | ⟨-, -, rfl⟩)
          · exact ⟨r₁, hfirst⟩
          · exact ⟨r₂, hsecond⟩
      · rename_i hcomm
        rw [Bool.and_eq_true, beq_iff_eq] at hcomm
        cases h
        refine .inr ⟨rfl, ?_⟩
        rintro operands (rfl | ⟨hop, htwo, -⟩)
        · exact ⟨r₁, hfirst⟩
        · exact absurd ⟨hop, htwo⟩ hcomm
  · rename_i hfits
    simp only [Bool.and_eq_true, beq_iff_eq, and_assoc] at hfits
    cases h
    exact .inl ⟨hfits, rfl⟩

/-- Two records resolve the settled identifiers to the same nodes. -/
def Alike (known : List String) (r r' : Match) : Prop :=
  ∀ i ∈ known, r'.resolve? i = r.resolve? i

/-- Records stay alike if what is said about the settled identifiers does not change in either. -/
theorem Alike.sameAt {known : List String} {r r' r₁ r₁' : Match} (h : Alike known r r')
    (hsame : ∀ i ∈ known, Match.SameAt r r₁ i) (hsame' : ∀ i ∈ known, Match.SameAt r' r₁' i) :
    Alike known r₁ r₁' := by
  intro i hi
  rw [(hsame i hi).resolve?, (hsame' i hi).resolve?]
  exact h i hi

/-- Capturing one node in both records settles the identifier. It is new in both, so it resolves to
that node in both. -/
theorem Alike.bind {known : List String} {r r' : Match} {ident : Option String} {id : NodeId}
    (h : Alike known r r') (hknown : ∀ i, ident = some i → ¬ i ∈ known)
    (hfree : ∀ i, ident = some i → Keyed.get? i r.submatches = none)
    (hfree' : ∀ i, ident = some i → Keyed.get? i r'.submatches = none) :
    Alike (ident.toList ++ known) (r.bind ident id) (r'.bind ident id) := by
  intro i hi
  rw [List.mem_append, Option.mem_toList] at hi
  -- The identifier itself, or one that was settled before and is not touched.
  rcases hi with hi | hi
  · obtain rfl : ident = some i := hi
    rw [Match.resolve?_bind_self (hfree i rfl), Match.resolve?_bind_self (hfree' i rfl)]
  · have hne : ident ≠ some i := fun hid => hknown i hid hi
    rw [(Match.sameAt_bind hne).resolve?, (Match.sameAt_bind hne).resolve?]
    exact h i hi

/-- Where both runs find out whether a group matches at a node, they find the same. -/
def SameFindings (inc inc' : Inclusion) (g : String) : Prop :=
  ∀ id ms ms', inc g id = .ok ms → inc' g id = .ok ms' → ms'.isEmpty = ms.isEmpty

/-- Two runs of a shape, from records in which its identifiers are new and the settled ones are
alike, have the same outcome, and the records are alike after it. -/
def RunsAlike (b b' : Block) (inc inc' : Inclusion) (s : Shape) : Prop :=
  ∀ id known known' r r' a a', settle known s = some known' → s.idents.Nodup →
    Fresh s.idents known r → Fresh s.idents known r' → Alike known r r' →
    attempt b inc s id r = .ok a → attempt b' inc' s id r' = .ok a' →
    a'.matched = a.matched ∧ (a.matched = true → Alike known' a.record a'.record)

/-- The same for the arguments of an operation. Once an argument fails in one run it fails in the
other, and then the records do not matter any more. -/
theorem attemptAll_runsAlike {ss : List Shape} (ih : ∀ s ∈ ss, RunsAlike b b' inc inc' s) :
    ∀ ids known known' r r' a a', ids.length = ss.length → settleAll known ss = some known' →
      (identsList ss).Nodup → Fresh (identsList ss) known r → Fresh (identsList ss) known r' →
      Alike known r r' →
      attemptAll b inc ss ids r = .ok a → attemptAll b' inc' ss ids r' = .ok a' →
      a'.matched = a.matched ∧ (a.matched = true → Alike known' a.record a'.record) := by
  induction ss with
  | nil =>
    intro ids known known' r r' a a' _ hsettle _ _ _ halike h h'
    cases hsettle
    cases h
    cases h'
    exact ⟨rfl, fun _ => halike⟩
  | cons s ss ihss =>
    intro ids known known' r r' a a' hlen hsettle hnd hfresh hfresh' halike h h'
    cases ids with
    | nil => cases hlen
    | cons id ids =>
      obtain ⟨known₁, hs, hss⟩ := settleAll_cons_inv hsettle
      rw [identsList_cons, List.nodup_append] at hnd
      obtain ⟨hnds, hndss, hdisj⟩ := hnd
      rw [identsList_cons] at hfresh hfresh'
      rw [attemptAll, bind_eq_ok] at h h'
      obtain ⟨⟨matched, r₁⟩, hfirst, h⟩ := h
      obtain ⟨⟨matched', r₁'⟩, hfirst', h'⟩ := h'
      obtain ⟨hsame, halike₁⟩ := ih s List.mem_cons_self id known known₁ r r' _ _ hs hnds
        (fun i hi => hfresh i (List.mem_append_left _ hi))
        (fun i hi => hfresh' i (List.mem_append_left _ hi)) halike hfirst hfirst'
      obtain rfl : matched' = matched := hsame
      cases matched' with
      | false =>
        cases h
        cases h'
        exact ⟨rfl, fun hmatched => absurd hmatched Bool.false_ne_true⟩
      | true =>
        -- The identifiers of the later arguments are still new, in both records.
        have hlater : ∀ {b₀ : Block} {inc₀ : Inclusion} {q q₁ : Match},
            attempt b₀ inc₀ s id q = .ok ⟨true, q₁⟩ → Fresh (s.idents ++ identsList ss) known q →
            Fresh (identsList ss) known₁ q₁ := by
          intro b₀ inc₀ q q₁ hq hfreshq i hi
          have hnot : ¬ i ∈ s.idents := fun his => hdisj i his i hi rfl
          obtain ⟨hunknown, hsub⟩ := hfreshq i (List.mem_append_right _ hi)
          refine ⟨fun hi₁ => ?_, (attempt_sameAt s hnot id q q₁ hq).1.trans hsub⟩
          rcases mem_of_mem_settle s known known₁ hs i hi₁ with hi₁ | hi₁
          · exact hunknown hi₁
          · exact hnot hi₁
        exact ihss (fun t ht => ih t (List.mem_cons_of_mem s ht)) ids known₁ known' r₁ r₁' a a'
          (Nat.succ.inj hlen) hss hndss (hlater hfirst hfresh) (hlater hfirst' hfresh')
          (halike₁ rfl) h h'

/-- **An operation runs alike on both blocks if its arguments do.** The same orders are tried on
both, though not in the same sequence, so the runs may succeed with different ones. Their records
then differ in what the arguments have captured; settledness says that nothing refers to it. -/
theorem runsAlike_node (hex : b.Exchanges b') {ident : Option String} {ty : Option ValueType}
    {op : Operation} {args : List Shape} (ih : ∀ a ∈ args, RunsAlike b b' inc inc' a) :
    RunsAlike b b' inc inc' (.node ident ty op args) := by
  intro id known known' r r' a a' hsettle hnd hfresh hfresh' halike h h'
  obtain ⟨inner, hinner, hknown'⟩ := settle_node_inv hsettle
  rw [idents_node, List.nodup_append] at hnd
  obtain ⟨-, hndargs, hdisj⟩ := hnd
  rw [idents_node] at hfresh hfresh'
  have hargs : Fresh (identsList args) known r := fun i hi =>
    hfresh i (List.mem_append_right _ hi)
  have hargs' : Fresh (identsList args) known r' := fun i hi =>
    hfresh' i (List.mem_append_right _ hi)
  obtain ⟨n, hn, hcases⟩ := attempt_node_cases h
  obtain ⟨n', hn', hcases'⟩ := attempt_node_cases h'
  obtain ⟨n'', hn'', hnode⟩ := hex.node? id n hn
  rw [hn', Option.some.injEq] at hn''
  subst hn''
  rw [hex.hasType, hnode.op, hnode.length_inputs] at hcases'
  -- Whether the node fits the top does not depend on the order of its operands.
  rcases hcases with ⟨hunfit, hfailed⟩ | ⟨⟨hty, hop, hlen⟩, hcases⟩
  · rcases hcases' with ⟨-, hfailed'⟩ | ⟨hfits, -⟩
    · refine ⟨hfailed'.trans hfailed.symm, fun hmatched => ?_⟩
      rw [hfailed] at hmatched
      cases hmatched
    · exact absurd hfits hunfit
  rcases hcases' with ⟨hunfit, -⟩ | ⟨-, hcases'⟩
  · exact absurd ⟨hty, hop, hlen⟩ hunfit
  subst hop
  simp only [tried_exchange hnode hlen] at hcases'
  -- On one order of the operands the two runs have the same outcome.
  have horder : ∀ operands, Tried n.op args n.inputs operands → ∀ c c',
      attemptAll b inc args operands r = .ok c → attemptAll b' inc' args operands r' = .ok c' →
      c'.matched = c.matched ∧ (c.matched = true → Alike inner c.record c'.record) := by
    intro operands htried c c' hc hc'
    have hlength : operands.length = args.length := by
      rcases htried with rfl | ⟨-, -, rfl⟩
      · exact hlen
      · exact List.length_reverse.trans hlen
    exact attemptAll_runsAlike ih operands known inner r r' c c' hlength hinner hndargs hargs hargs'
      halike hc hc'
  rcases hcases with ⟨operands, r₁, htried, hall, rfl⟩ | ⟨hfailed, hnone⟩
  · rcases hcases' with ⟨operands', r₁', htried', hall', rfl⟩ | ⟨hfailed', hnone'⟩
    · refine ⟨rfl, fun _ => ?_⟩
      have hframe : ∀ i, ¬ i ∈ identsList args → Match.SameAt r (r₁.cover id) i := fun i hi =>
        attemptAll_sameAt hi operands r r₁ hall
      have hframe' : ∀ i, ¬ i ∈ identsList args → Match.SameAt r' (r₁'.cover id) i := fun i hi =>
        attemptAll_sameAt hi operands' r' r₁' hall'
      have hident : ∀ i, ident = some i → ¬ i ∈ identsList args := fun i hi hmem =>
        hdisj i (by simp [hi]) i hmem rfl
      have htop : ∀ i, ident = some i → i ∈ ident.toList ++ identsList args := fun i hi =>
        List.mem_append_left _ (by simp [hi])
      have hfree : ∀ i, ident = some i → Keyed.get? i (r₁.cover id).submatches = none :=
        fun i hi => (hframe i (hident i hi)).1.trans (hfresh i (htop i hi)).2
      have hfree' : ∀ i, ident = some i → Keyed.get? i (r₁'.cover id).submatches = none :=
        fun i hi => (hframe' i (hident i hi)).1.trans (hfresh' i (htop i hi)).2
      rcases hknown' with ⟨-, -, rfl⟩ | ⟨hfixed, rfl⟩
      · -- The orders may differ, but what is settled was introduced outside.
        have hkept : Alike known (r₁.cover id) (r₁'.cover id) :=
          halike.sameAt (fun i hi => hframe i fun hmem => (hargs i hmem).1 hi)
            fun i hi => hframe' i fun hmem => (hargs i hmem).1 hi
        exact hkept.bind (fun i hi => (hfresh i (htop i hi)).1) hfree hfree'
      · -- There is one order only, which both runs have taken.
        obtain rfl : operands = n.inputs := htried.resolve_right fun h => hfixed ⟨h.1, h.2.1⟩
        obtain rfl : operands' = n.inputs := htried'.resolve_right fun h => hfixed ⟨h.1, h.2.1⟩
        have hkept : Alike inner (r₁.cover id) (r₁'.cover id) :=
          (horder n.inputs htried _ _ hall hall').2 rfl
        refine hkept.bind (fun i hi hmem => ?_) hfree hfree'
        rcases mem_of_mem_settleAll (fun s' _ => mem_of_mem_settle s') known inner hinner i hmem
          with hmem | hmem
        · exact (hfresh i (htop i hi)).1 hmem
        · exact hident i hi hmem
    · -- The other run has tried this order as well.
      obtain ⟨r₁', hall'⟩ := hnone' operands htried
      exact absurd (horder operands htried _ _ hall hall').1 Bool.false_ne_true
  · rcases hcases' with ⟨operands', r₁', htried', hall', rfl⟩ | ⟨hfailed', -⟩
    · obtain ⟨r₁, hall⟩ := hnone operands' htried'
      exact absurd (horder operands' htried' _ _ hall hall').1.symm Bool.false_ne_true
    · refine ⟨hfailed'.trans hfailed.symm, fun hmatched => ?_⟩
      rw [hfailed] at hmatched
      cases hmatched

/-- A test with the same result in both runs decides both, and settles what it settles in both.
Shapes without arguments are such tests. -/
theorem runsAlike_test {c : Bool} {known : List String} {q q' r r' : Match} {a a' : Attempt}
    (h : (if c then pure (.succeeded q) else pure (.failed r) : Except Fault Attempt) = .ok a)
    (h' : (if c then pure (.succeeded q') else pure (.failed r') : Except Fault Attempt) = .ok a')
    (halike : c = true → Alike known q q') :
    a'.matched = a.matched ∧ (a.matched = true → Alike known a.record a'.record) := by
  cases c with
  | true =>
    cases h
    cases h'
    exact ⟨rfl, fun _ => halike rfl⟩
  | false =>
    cases h
    cases h'
    exact ⟨rfl, fun hmatched => absurd hmatched Bool.false_ne_true⟩

/-- Capturing the node that the top of a shape lies on settles what the top introduces. -/
theorem Alike.bind_top {known : List String} {r r' : Match} {s : Shape} (h : Alike known r r')
    (hfresh : Fresh s.idents known r) (hfresh' : Fresh s.idents known r') (id : NodeId) :
    Alike (s.ident?.toList ++ known) (r.bind s.ident? id) (r'.bind s.ident? id) := by
  have htop : ∀ i, s.ident? = some i → i ∈ s.idents := fun i hi => mem_idents_of_at? (at?_nil _) hi
  exact h.bind (fun i hi => (hfresh i (htop i hi)).1) (fun i hi => (hfresh i (htop i hi)).2)
    fun i hi => (hfresh' i (htop i hi)).2

/-- A shape for a value tests the width and that there is a value, which are the same on both
blocks, and captures the node. -/
theorem runsAlike_producer (hex : b.Exchanges b') {ident : Option String}
    {ty : Option ValueType} : RunsAlike b b' inc inc' (.producer ident ty) := by
  intro id known known' r r' a a' hsettle _ hfresh hfresh' halike h h'
  rw [settle, Option.some.injEq] at hsettle
  subst hsettle
  rw [attempt, bind_eq_ok] at h h'
  obtain ⟨n, hn, h⟩ := h
  obtain ⟨n', hn', h'⟩ := h'
  have hnode := hex.of_node hn hn'
  rw [hex.hasType, hnode.isProducer] at h'
  exact runsAlike_test h h' fun _ => halike.bind_top hfresh hfresh' id

/-- A shape for a constant tests the operation and the number, which are the same on both blocks,
and captures the node. -/
theorem runsAlike_constant (hex : b.Exchanges b') {ident : Option String}
    {ty : Option ValueType} {value : Option Int64} :
    RunsAlike b b' inc inc' (.constant ident ty value) := by
  intro id known known' r r' a a' hsettle _ hfresh hfresh' halike h h'
  rw [settle, Option.some.injEq] at hsettle
  subst hsettle
  rw [attempt, bind_eq_ok] at h h'
  obtain ⟨n, hn, h⟩ := h
  obtain ⟨n', hn', h'⟩ := h'
  have hnode := hex.of_node hn hn'
  rw [hex.hasType, hnode.op, hnode.isProducer, hnode.literal?] at h'
  exact runsAlike_test h h' fun _ => halike.bind_top hfresh hfresh' id

/-- A group runs alike if it is found alike. The alternatives may differ in what they have captured
inside, but their roots are the node itself, and this is all that the identifier resolves to. -/
theorem runsAlike_inclusion (hrooted : inc.Rooted) (hrooted' : inc'.Rooted)
    {ident group : String} (hgroup : SameFindings inc inc' group) :
    RunsAlike b b' inc inc' (.inclusion ident group) := by
  intro id known known' r r' a a' hsettle _ _ _ halike h h'
  rw [settle, Option.some.injEq] at hsettle
  subst hsettle
  rw [attempt, bind_eq_ok] at h h'
  obtain ⟨-, -, h⟩ := h
  obtain ⟨-, -, h'⟩ := h'
  obtain ⟨ms, hms, h⟩ := bind_eq_ok.1 h
  obtain ⟨ms', hms', h'⟩ := bind_eq_ok.1 h'
  have hempty := hgroup id ms ms' hms hms'
  cases ms with
  | nil =>
    cases ms' with
    | nil =>
      cases h
      cases h'
      exact ⟨rfl, fun hmatched => absurd hmatched Bool.false_ne_true⟩
    | cons => cases hempty
  | cons m rest =>
    cases ms' with
    | nil => cases hempty
    | cons m' rest' =>
      cases h
      cases h'
      refine ⟨rfl, fun _ i hi => ?_⟩
      by_cases hii : i = ident
      · -- The alternatives may differ, but all of them are rooted at the included node.
        subst hii
        exact (Match.resolve?_addAlternatives_self (List.cons_ne_nil _ _)
          (hrooted' group id _ hms')).trans (Match.resolve?_addAlternatives_self
            (List.cons_ne_nil _ _) (hrooted group id _ hms)).symm
      · have hsame : ∀ q qs, Match.SameAt q (q.addAlternatives ident qs) i := fun q qs =>
          ⟨Keyed.get?_insert_of_ne hii qs q.submatches, rfl⟩
        have hold := halike i (List.mem_of_ne_of_mem hii hi)
        exact ((hsame r' _).resolve?.trans hold).trans (hsame r _).resolve?.symm

/-- A reference runs alike because the identifier is settled, so it resolves to the same node in
both runs. An unsettled one might be bound in one of them only. -/
theorem runsAlike_backreference {ident : String} :
    RunsAlike b b' inc inc' (.backreference ident) := by
  intro id known known' r r' a a' hsettle _ _ _ halike h h'
  rw [settle] at hsettle
  split at hsettle
  · rename_i hknown
    cases hsettle
    rw [attempt, bind_eq_ok] at h h'
    obtain ⟨-, -, h⟩ := h
    obtain ⟨-, -, h'⟩ := h'
    rw [halike ident hknown] at h'
    exact runsAlike_test h h' fun _ => halike
  · cases hsettle

/-- **A settled shape runs alike on a block and on the block with operands exchanged,** if the
groups that it includes are found alike. The induction is on the shape. -/
theorem runsAlike (hex : b.Exchanges b') (hrooted : inc.Rooted) (hrooted' : inc'.Rooted)
    (s : Shape) (hgroups : ∀ i g, .inclusion i g ∈ s.subshapes → SameFindings inc inc' g) :
    RunsAlike b b' inc inc' s := by
  induction s using Shape.induction with
  | node ident ty op args ih =>
    refine runsAlike_node hex fun a ha => ih a ha fun i g hi => hgroups i g ?_
    exact List.mem_cons_of_mem _ (mem_subshapesList.2 ⟨a, ha, hi⟩)
  | producer ident ty => exact runsAlike_producer hex
  | constant ident ty value => exact runsAlike_constant hex
  | inclusion ident group =>
    exact runsAlike_inclusion hrooted hrooted' (hgroups ident group (by simp [subshapes]))
  | backreference ident => exact runsAlike_backreference

end Shape

/-! ## Patterns and groups -/

/-- A filtering map that has an answer has one for every member; none of them has failed. The
converse is stated with the other facts about faults. -/
theorem exists_of_filterMapM {ε α β : Type} {f : α → Except ε (Option β)} {l : List α} {r : List β}
    (h : l.filterMapM f = .ok r) : ∀ a ∈ l, ∃ o, f a = .ok o := by
  induction l generalizing r with
  | nil => exact fun a ha => absurd ha List.not_mem_nil
  | cons c l ih =>
    rw [List.filterMapM_cons, bind_eq_ok] at h
    obtain ⟨o, ho, h⟩ := h
    have hrest : ∃ rest, l.filterMapM f = .ok rest := by
      cases o with
      | none => exact ⟨r, h⟩
      | some y =>
        obtain ⟨rest, hrest, -⟩ := bind_eq_ok.1 h
        exact ⟨rest, hrest⟩
    obtain ⟨rest, hrest⟩ := hrest
    intro a ha
    rcases List.mem_cons.1 ha with rfl | ha
    · exact ⟨o, ho⟩
    · exact ih hrest a ha

/-- A settled pattern with distinct identifiers matches on both blocks or on neither, whatever the
two records say. -/
theorem Pattern.matchWith_exchange {b b' : Block} {inc inc' : Inclusion} (hex : b.Exchanges b')
    (hrooted : inc.Rooted) (hrooted' : inc'.Rooted) {p : Pattern} (hnd : p.root.idents.Nodup)
    (hsettled : p.root.Settled)
    (hgroups : ∀ i g, .inclusion i g ∈ p.root.subshapes → Shape.SameFindings inc inc' g)
    {id : NodeId} {found found' : Option Match} (h : p.matchWith b inc id = .ok found)
    (h' : p.matchWith b' inc' id = .ok found') : found'.isSome = found.isSome := by
  obtain ⟨known, hknown⟩ := Option.isSome_iff_exists.1 hsettled
  rw [matchWith, bind_eq_ok] at h h'
  obtain ⟨a, ha, h⟩ := h
  obtain ⟨a', ha', h'⟩ := h'
  cases h
  cases h'
  -- Both runs start with nothing said and nothing settled.
  have hfresh : Shape.Fresh p.root.idents [] (.start p id) := fun i _ => ⟨List.not_mem_nil, rfl⟩
  obtain ⟨hsame, -⟩ := Shape.runsAlike hex hrooted hrooted' p.root hgroups id [] known
    (.start p id) (.start p id) a a' hknown hnd hfresh hfresh (fun _ _ => rfl) ha ha'
  rw [hsame]
  cases a.matched <;> rfl

namespace Tables

/-- A pattern includes a group that another pattern belongs to. -/
def Includes (t : Tables) (p q : Pattern) : Prop :=
  ∃ i g, .inclusion i g ∈ p.root.subshapes ∧ q ∈ t.group g

/-- The references of a pattern are settled, and those of all patterns it leads to. -/
def SettledBelow (t : Tables) (p : Pattern) : Prop :=
  ∀ q, ReflTransGen t.Includes p q → q.root.Settled

variable {t : Tables} {b b' : Block}

/-- Where the patterns of a group are settled, and all they lead to, both runs find the same. The
induction is on the layers of inclusions. -/
theorem sameFindings_alternatives (ht : t.Distinct) (hex : b.Exchanges b') (n : Nat) (g : String)
    (hg : ∀ q ∈ t.group g, t.SettledBelow q) :
    Shape.SameFindings (t.alternatives b n) (t.alternatives b' n) g := by
  induction n generalizing g with
  | zero =>
    intro id ms ms' h
    cases h
  | succ n ih =>
    intro id ms ms' h h'
    -- Pattern by pattern: what it leads to is settled too, and found alike by the layer below.
    have hsame : ∀ q ∈ t.group g, ∀ found found',
        q.matchWith b (t.alternatives b n) id = .ok found →
        q.matchWith b' (t.alternatives b' n) id = .ok found' → found'.isSome = found.isSome := by
      intro q hq found found' hfound hfound'
      refine Pattern.matchWith_exchange hex (rooted_alternatives n) (rooted_alternatives n)
        (ht.of_mem_group hq) (hg q hq q .refl) (fun i g' hi => ih g' fun q' hq' => ?_)
        hfound hfound'
      exact fun q'' hq'' => hg q hq q'' (hq''.head ⟨i, g', hi, hq'⟩)
    rw [Bool.eq_iff_iff, List.isEmpty_iff, List.isEmpty_iff, List.eq_nil_iff_forall_not_mem,
      List.eq_nil_iff_forall_not_mem]
    constructor
    · intro hnone m hm
      obtain ⟨q, hq, hm⟩ := (mem_of_filterMapM h m).1 hm
      obtain ⟨found', hfound'⟩ := exists_of_filterMapM h' q hq
      obtain ⟨m', rfl⟩ := Option.isSome_iff_exists.1 (hsame q hq _ _ hm hfound')
      exact hnone m' ((mem_of_filterMapM h' m').2 ⟨q, hq, hfound'⟩)
    · intro hnone m' hm'
      obtain ⟨q, hq, hm'⟩ := (mem_of_filterMapM h' m').1 hm'
      obtain ⟨found, hfound⟩ := exists_of_filterMapM h q hq
      obtain ⟨m, rfl⟩ := Option.isSome_iff_exists.1 (hsame q hq _ _ hfound hm').symm
      exact hnone m ((mem_of_filterMapM h m).2 ⟨q, hq, hfound⟩)

/-- Matching as it is done, with all layers, has the same outcome on both blocks. The layers that
answer may be different ones. -/
theorem matchAt_exchanges (ht : t.Distinct) (hex : b.Exchanges b') {p : Pattern}
    (hnd : p.root.idents.Nodup) (hsettled : t.SettledBelow p) {id : NodeId}
    {found found' : Option Match} (h : t.matchAt b id p = .ok found)
    (h' : t.matchAt b' id p = .ok found') : found'.isSome = found.isSome := by
  have hdepth : t.inclusionDepth b' = t.inclusionDepth b := by
    rw [inclusionDepth, inclusionDepth, hex.size]
  rw [matchAt, included] at h h'
  rw [hdepth] at h'
  refine Pattern.matchWith_exchange hex (rooted_alternatives _) (rooted_alternatives _) hnd
    (hsettled p .refl) (fun i g hi => ?_) h h'
  exact sameFindings_alternatives ht hex _ g fun q hq q' hq' =>
    hsettled q' (hq'.head ⟨i, g, hi, hq⟩)

/-- **Whether a settled pattern matches does not depend on the order of commutative operands.** Take
a pattern of compiled tables whose references are settled, like those of all patterns it leads to,
and a block with the operands of some commutative operations exchanged. Where matching ends on both
blocks, the pattern matches on both or on neither. It does end on both if no group includes itself
at its root and the block is without cycles. -/
theorem matchAt_exchange {source : String} (ht : Tables.ofSource source = .ok t) {p : Pattern}
    (hp : p ∈ t.patterns) (hsettled : t.SettledBelow p) (b : Block) (chosen : NodeId → Bool)
    (id : NodeId) :
    (∀ found found', t.matchAt b id p = .ok found →
        t.matchAt (b.exchange chosen) id p = .ok found' → found'.isSome = found.isSome)
      ∧ (t.RootAcyclic → b.OperandsAcyclic → b.OperandsInRange → id < b.size →
        ((∃ m, t.matchAt (b.exchange chosen) id p = .ok (some m))
          ↔ ∃ m, t.matchAt b id p = .ok (some m))) := by
  have hdistinct := distinct_of_ofSource ht
  have hex := b.exchanges_exchange chosen
  have hnd : p.root.idents.Nodup := by
    obtain ⟨ps, rfl, hnodup⟩ := hdistinct
    exact hnodup p (mem_patterns_ofPatterns.1 hp)
  -- Where both runs come to an end they agree; that they do is the other half.
  have hsame : ∀ found found', t.matchAt b id p = .ok found →
      t.matchAt (b.exchange chosen) id p = .ok found' → found'.isSome = found.isSome :=
    fun found found' h h' => matchAt_exchanges hdistinct hex hnd hsettled h h'
  refine ⟨hsame, fun hroots hacyclic hrange hid => ?_⟩
  obtain ⟨found, hfound⟩ := matchAt_total hroots hacyclic hrange hid p
  obtain ⟨found', hfound'⟩ := matchAt_total hroots (hex.operandsAcyclic hacyclic)
    (hex.operandsInRange hrange) (hex.size ▸ hid) p
  have houtcomes := hsame found found' hfound hfound'
  rw [hfound, hfound']
  cases found <;> cases found' <;> simp_all

/-! ## With and without settled references -/

/-- It is enough that the references of all patterns are settled. -/
theorem settledBelow_of_patterns {ps : List Pattern} (h : ∀ q ∈ ps, q.root.Settled) {p : Pattern}
    (hp : p ∈ ps) : (ofPatterns ps).SettledBelow p := by
  intro q hq
  rcases hq.cases_tail with rfl | ⟨_, -, i, g, -, hmem⟩
  · exact h _ hp
  · exact h q (mem_group_ofPatterns.1 hmem).1

/-- What is left when a sum with a value is taken from the value. The reference goes to an
identifier that is introduced outside of the sum. -/
def changing : String :=
  "amount: (<v> LOCAL) -> [<v>] | (<c> CONSTANT) -> [<c>];
   change: (SUB (<a> LOCAL) (ADD <n> amount a)) -> [MOV <out>, <n>] [NEG <out>];"

/-- The sum of two arguments, taken from the second of them. -/
def changed : Block := Build.finish ⟨"sums", "f", "entry"⟩ do
  let x ← Build.arg 0 .i32
  let y ← Build.arg 1 .i32
  let sum ← Build.op .add .i32 [x, y]
  Build.op .sub .i32 [y, sum]

set_option maxRecDepth 10000 in
theorem exists_patterns_changing : ∃ ps, ofSource changing = .ok (ofPatterns ps)
    ∧ (ps.all (fun p => decide p.root.Settled && !(p.root matches .inclusion ..))
      && ps.any fun p => (ofPatterns ps).matchAt changed 3 p matches .ok (some _)) = true :=
  @ofSource_of_check changing _ _ rfl (by decide +kernel)

/-- The pattern of `changing` matches with the operands of the sum in either order. Its reference
back goes to an identifier that is settled before the sum is tried, so no order of the sum can
unsettle it. -/
theorem matchAt_exchange_changed :
    ∃ t, ofSource changing = .ok t ∧ t.RootAcyclic ∧ changed.OperandsAcyclic
      ∧ changed.OperandsInRange ∧ (changed.exchange (· == 2)).node? 2 ≠ changed.node? 2
      ∧ ∃ p ∈ t.patterns, t.SettledBelow p
          ∧ (∃ m, t.matchAt changed 3 p = .ok (some m))
          ∧ ∃ m, t.matchAt (changed.exchange (· == 2)) 3 p = .ok (some m) := by
  obtain ⟨ps, hps, hcheck⟩ := exists_patterns_changing
  rw [Bool.and_eq_true, List.all_eq_true, List.any_eq_true] at hcheck
  obtain ⟨hall, p, hp, hmatch⟩ := hcheck
  have hordered : changed.Ordered := by decide
  have hsettled : ∀ q ∈ ps, q.root.Settled := fun q hq => by
    have hq := hall q hq
    rw [Bool.and_eq_true] at hq
    exact of_decide_eq_true hq.1
  have hroots : (ofPatterns ps).RootAcyclic := rootAcyclic_of_roots fun q hq i g hroot => by
    have hq := hall q hq
    rw [hroot, Bool.and_eq_true] at hq
    cases hq.2
  -- The match on the block as it is; the theorem carries it over to the other.
  have hfound : ∃ m, (ofPatterns ps).matchAt changed 3 p = .ok (some m) := by
    split at hmatch
    · exact ⟨_, by assumption⟩
    · cases hmatch
  have hbelow := settledBelow_of_patterns hsettled hp
  have hmem : p ∈ (ofPatterns ps).patterns := mem_patterns_ofPatterns.2 hp
  have hiff := (matchAt_exchange hps hmem hbelow changed (· == 2) 3).2 hroots
    hordered.acyclic.operands hordered.inRange.operands (by decide)
  exact ⟨_, hps, hroots, hordered.acyclic.operands, hordered.inRange.operands, by decide, p, hmem,
    hbelow, hfound, hiff.2 hfound⟩

/-- What is left when the first operand of a sum is taken from the sum. The reference goes to an
identifier that is introduced inside the sum. -/
def cancelling : String :=
  "cancel: (SUB (ADD (<a> LOCAL) (<b> LOCAL)) a) -> [MOV <out>, <b>];"

/-- The sum of two arguments, less the first of them. -/
def cancelled : Block := Build.finish ⟨"sums", "f", "entry"⟩ do
  let x ← Build.arg 0 .i32
  let y ← Build.arg 1 .i32
  let sum ← Build.op .add .i32 [x, y]
  Build.op .sub .i32 [sum, x]

set_option maxRecDepth 10000 in
theorem exists_patterns_cancelling : ∃ ps, ofSource cancelling = .ok (ofPatterns ps)
    ∧ (ps.any fun p => ((ofPatterns ps).matchAt cancelled 3 p matches .ok (some _))
      && ((ofPatterns ps).matchAt (cancelled.exchange (· == 2)) 3 p matches .ok none)) = true :=
  @ofSource_of_check cancelling _ _ rfl (by decide +kernel)

/-- **Without settled references the order does matter.** The pattern of `cancelling` matches, but
not with the operands of the sum exchanged: the sum is then matched with `a` as the other argument,
and that order is kept. -/
theorem not_matchAt_exchange_cancelled :
    ∃ t, ofSource cancelling = .ok t ∧ cancelled.InRange ∧ cancelled.Acyclic
      ∧ ∃ p ∈ t.patterns, (∃ m, t.matchAt cancelled 3 p = .ok (some m))
          ∧ t.matchAt (cancelled.exchange (· == 2)) 3 p = .ok none := by
  obtain ⟨ps, hps, hcheck⟩ := exists_patterns_cancelling
  obtain ⟨p, hp, hcheck⟩ := List.any_eq_true.1 hcheck
  rw [Bool.and_eq_true] at hcheck
  obtain ⟨hmatch, hnone⟩ := hcheck
  have hordered : cancelled.Ordered := by decide
  refine ⟨_, hps, hordered.inRange, hordered.acyclic, p, mem_patterns_ofPatterns.2 hp, ?_, ?_⟩
  · split at hmatch
    · exact ⟨_, by assumption⟩
    · cases hmatch
  · split at hnone
    · assumption
    · cases hnone

end Tables

end TileSelect
