import Mathlib.Tactic.IntervalCases
import TileSelect.Proofs.Match.Exactness
import TileSelect.Proofs.Pattern.Scope
import TileSelect.Proofs.Selection.Offers
/-!
Tiles are rooted, connected and closed under operands.

The property has to be proved for more than tiles: a chosen alternative of a group is merged into
the tile, and it need not cover anything. So it is stated for a root and two sets, and the root is
one of the nodes covered or read. Read nodes are then operands of covered nodes, or the root.

Along a match the argument is about positions. Every position lies on a node that is covered or
read, by the match itself or by what was chosen for a group; a reference back lies where another
position lies. Every position but the top lies on an operand of the position above, which is an
operation and therefore covered. Closedness, what is read, and connectedness all follow from these
two facts. Nested groups come in by induction on the layers.
-/

set_option autoImplicit false

namespace TileSelect

open Relation

/-! ## The property -/

/-- A step along an operand that stays inside a set. -/
def Block.Within (b : Block) (s : NodeSet) (x y : NodeId) : Prop :=
  x ∈ s ∧ y ∈ s ∧ b.Operand x y

/-- What is covered and read below a root. -/
structure Block.Subgraph (b : Block) (root : NodeId) (covered inputs : NodeSet) : Prop where
  top : root ∈ covered ∨ root ∈ inputs
  disjoint : ∀ x ∈ covered, ¬ x ∈ inputs
  /-- A covered node has all its operands covered or read, if it has as many as it should. -/
  closed : ∀ c ∈ covered, b.Fits c → ∀ x, b.Operand c x → x ∈ covered ∨ x ∈ inputs
  read : ∀ x ∈ inputs, x = root ∨ ∃ c ∈ covered, b.Operand c x
  connected : ∀ c ∈ covered, root ∈ covered ∧ ReflTransGen (b.Within covered) root c

theorem Block.Within.mono {b : Block} {s s' : NodeSet} (h : ∀ x ∈ s, x ∈ s') {x y : NodeId}
    (hxy : ReflTransGen (b.Within s) x y) : ReflTransGen (b.Within s') x y :=
  hxy.lift (fun z => z) fun _ _ hstep => ⟨h _ hstep.1, h _ hstep.2.1, hstep.2.2⟩

/-! ## Matches -/

section Placed

variable {b : Block} {inc : Inclusion} {id : NodeId} {p : Pattern} {m : Match}
  {e : Shape.Embedding} {chosen : List (String × Instantiation)}

/-- Whatever is chosen for an included group is a subgraph below the node where it was found. -/
def Inclusion.Subgraphs (b : Block) (inc : Inclusion) : Prop :=
  ∀ g k ms, inc g k = .ok ms → ∀ m ∈ ms, ∀ i, m.Instantiates b i →
    b.Subgraph k i.covered i.inputs

variable (he : Shape.Placed b inc p.root id (.start p id) m e) (hrooted : inc.Rooted)
  (hsub : inc.Subgraphs b) (hchosen : Match.Chooses b m.submatches chosen)
include he

/-- What an argument lies on is an operand of what the operation lies on, and the latter is covered,
as every node that an operation lies on is. -/
theorem Shape.Placed.operand_of_concat {pos : Shape.Position} {k : Nat} {s : Shape}
    (h : p.root.at? (pos ++ [k]) = some s) :
    e pos ∈ m.covered ∧ b.Operand (e pos) (e (pos ++ [k])) := by
  obtain ⟨ident, ty, op, args, hpos, hk⟩ := Shape.at?_concat h
  obtain ⟨-, n, hn, -, hlen, horder⟩ := he.lies pos _ hpos
  have hlt : k < n.inputs.length := by
    rw [hlen]
    exact (List.getElem?_eq_some_iff.1 hk).1
  exact ⟨he.covered.2 ⟨pos, _, hpos, rfl, rfl⟩, n, hn, horder.child_mem hlt⟩

/-- Every position but the top lies on an operand of something covered. -/
theorem Shape.Placed.top_or_operand {pos : Shape.Position} {s : Shape}
    (h : p.root.at? pos = some s) : e pos = id ∨ ∃ c ∈ m.covered, b.Operand c (e pos) := by
  rcases List.eq_nil_or_concat' pos with rfl | ⟨above, k, rfl⟩
  · exact .inl he.top
  · obtain ⟨hcovered, hoperand⟩ := he.operand_of_concat h
    exact .inr ⟨_, hcovered, hoperand⟩

/-- A covered position is reached from the top through the operations above it. The induction is on
the position, from its end: the node above is covered, and reached before. -/
theorem Shape.Placed.reaches {covered : NodeSet} (hcovered : ∀ x ∈ m.covered, x ∈ covered)
    {pos : Shape.Position} {s : Shape} (h : p.root.at? pos = some s) (hpos : e pos ∈ covered) :
    id ∈ covered ∧ ReflTransGen (b.Within covered) id (e pos) := by
  induction pos using List.reverseRecOn generalizing s with
  | nil =>
    rw [he.top] at hpos ⊢
    exact ⟨hpos, .refl⟩
  | append_singleton above k ih =>
    obtain ⟨habove, hoperand⟩ := he.operand_of_concat h
    obtain ⟨ident, ty, op, args, hat, -⟩ := Shape.at?_concat h
    obtain ⟨hid, hpath⟩ := ih hat (hcovered _ habove)
    exact ⟨hid, hpath.tail ⟨hcovered _ habove, hpos, hoperand⟩⟩

include hsub hchosen

/-- What a position that is no reference lies on is covered or read, by the match or by what was
chosen for the group. -/
theorem Shape.Placed.known_of_introducing {pos : Shape.Position} {s : Shape}
    (h : p.root.at? pos = some s) (hs : ∀ i, s ≠ .backreference i) :
    e pos ∈ m.coveredWith chosen ∨ e pos ∈ m.readWith chosen := by
  -- What is covered and what is read can be told from the shape. For an inclusion it is the choice
  -- made for it that covers or reads the node.
  cases s with
  | node | constant =>
    exact .inl (Match.mem_coveredWith.2 (.inl (he.covered.2 ⟨pos, _, h, rfl, rfl⟩)))
  | producer => exact .inr (Match.mem_readWith.2 (.inl (he.inputs.2 ⟨pos, _, h, rfl, rfl⟩)))
  | inclusion ident g =>
    obtain ⟨i, ms, hi, hms, m', hm', hinst⟩ := he.choice_of_position hchosen h
    rcases (hsub g _ ms hms m' hm' i hinst).top with htop | htop
    · exact .inl (Match.mem_coveredWith.2 (.inr ⟨_, hi, htop⟩))
    · exact .inr (Match.mem_readWith.2 (.inr ⟨_, hi, htop⟩))
  | backreference ident => exact absurd rfl (hs ident)

include hrooted

/-- **What a position lies on is covered or read.** A reference back lies on what its identifier was
introduced for, so only the other shapes are left. -/
theorem Shape.Placed.known {pos : Shape.Position} {s : Shape} (h : p.root.at? pos = some s) :
    e pos ∈ m.coveredWith chosen ∨ e pos ∈ m.readWith chosen := by
  by_cases href : ∃ i, s = .backreference i
  · obtain ⟨i, rfl⟩ := href
    obtain ⟨-, hrefers⟩ := he.lies pos _ h
    obtain ⟨pos', s', hpos', hi, hsame⟩ := he.introduces hrooted hrefers
    rw [← hsame]
    refine he.known_of_introducing hsub hchosen hpos' fun j hj => ?_
    rw [hj] at hi
    cases hi
  · exact he.known_of_introducing hsub hchosen h fun i hi => href ⟨i, hi⟩

/-- The operands of what the match itself covers are covered or read. Only operations and constants
are covered; the operands of an operation are matched by its arguments, and a constant has none. -/
theorem Shape.Placed.known_of_operand {c x : NodeId} (hc : c ∈ m.covered) (hfits : b.Fits c)
    (hx : b.Operand c x) : x ∈ m.coveredWith chosen ∨ x ∈ m.readWith chosen := by
  obtain ⟨pos, s, hpos, hcomputed, rfl⟩ := he.covered.1 hc
  obtain ⟨n, hn, hx⟩ := hx
  cases s with
  | node ident ty op args =>
    obtain ⟨-, n', hn', -, hlen, horder⟩ := he.lies pos _ hpos
    rw [hn, Option.some.injEq] at hn'
    subst hn'
    -- The operand is matched by one of the arguments, in whatever order these were tried.
    obtain ⟨k, hk, rfl⟩ := horder.exists_child hx
    rw [hlen] at hk
    have harg := Shape.at?_concat_of_getElem? hpos (List.getElem?_eq_getElem hk)
    exact he.known hrooted hsub hchosen harg
  | constant ident ty value =>
    obtain ⟨-, n', hn', hop, -⟩ := he.lies pos _ hpos
    rw [hn, Option.some.injEq] at hn'
    subst hn'
    rw [Lowering.inputs_eq_nil hn (by rw [hop]; rfl) hfits] at hx
    cases hx
  | producer | inclusion | backreference => cases hcomputed

/-- **What a match and its choices cover and read is a subgraph.** Every covered node is reached
from the top through covered nodes, and every operand of one is covered or read. What is read is the
top itself or an operand of something covered. -/
theorem Shape.Placed.subgraph :
    b.Subgraph id (m.coveredWith chosen) ((m.readWith chosen).diff (m.coveredWith chosen)) := by
  have hcovered : ∀ x ∈ m.covered, x ∈ m.coveredWith chosen := fun x hx =>
    Match.mem_coveredWith.2 (.inl hx)
  have hsplit : ∀ {x}, x ∈ m.coveredWith chosen ∨ x ∈ m.readWith chosen →
      x ∈ m.coveredWith chosen ∨ x ∈ (m.readWith chosen).diff (m.coveredWith chosen) := by
    intro x hx
    rw [NodeSet.mem_diff]
    tauto
  have hchoice : ∀ choice ∈ chosen, ∃ pos s, p.root.at? pos = some s
      ∧ b.Subgraph (e pos) choice.2.covered choice.2.inputs := by
    rintro ⟨ident, i⟩ hi
    obtain ⟨pos, g, ms, hpos, hfound, m', hm', hinst⟩ := he.position_of_choice hchosen hi
    exact ⟨pos, _, hpos, hsub g _ ms hfound m' hm' i hinst⟩
  constructor
  · have htop := he.known hrooted hsub hchosen (Shape.at?_nil p.root)
    rw [he.top] at htop
    exact hsplit htop
  · intro x hx hdiff
    exact (NodeSet.mem_diff.1 hdiff).2 hx
  · intro c hc hfits x hx
    rcases Match.mem_coveredWith.1 hc with hown | ⟨choice, hi, hother⟩
    · exact hsplit (he.known_of_operand hrooted hsub hchosen hown hfits hx)
    · obtain ⟨pos, s, -, hgraph⟩ := hchoice choice hi
      rcases hgraph.closed c hother hfits x hx with hx | hx
      · exact .inl (Match.mem_coveredWith.2 (.inr ⟨choice, hi, hx⟩))
      · exact hsplit (.inr (Match.mem_readWith.2 (.inr ⟨choice, hi, hx⟩)))
  · intro x hx
    have hposition : ∀ {pos s}, p.root.at? pos = some s →
        e pos = id ∨ ∃ c ∈ m.coveredWith chosen, b.Operand c (e pos) := by
      intro pos s hpos
      rcases he.top_or_operand hpos with htop | ⟨c, hc, hoperand⟩
      · exact .inl htop
      · exact .inr ⟨c, hcovered c hc, hoperand⟩
    rcases Match.mem_readWith.1 (NodeSet.mem_diff.1 hx).1 with hx | ⟨choice, hi, hx⟩
    · obtain ⟨pos, s, hpos, -, rfl⟩ := he.inputs.1 hx
      exact hposition hpos
    · obtain ⟨pos, s, hpos, hgraph⟩ := hchoice choice hi
      rcases hgraph.read x hx with rfl | ⟨c, hc, hoperand⟩
      · exact hposition hpos
      · exact .inr ⟨c, Match.mem_coveredWith.2 (.inr ⟨choice, hi, hc⟩), hoperand⟩
  · intro c hc
    rcases Match.mem_coveredWith.1 hc with hown | ⟨choice, hi, hother⟩
    · obtain ⟨pos, s, hpos, -, rfl⟩ := he.covered.1 hown
      exact he.reaches hcovered hpos hc
    · -- The way goes from the top to the position of the group, and on inside the choice.
      obtain ⟨pos, s, hpos, hgraph⟩ := hchoice choice hi
      have hinside : ∀ x ∈ choice.2.covered, x ∈ m.coveredWith chosen := fun x hx =>
        Match.mem_coveredWith.2 (.inr ⟨choice, hi, hx⟩)
      obtain ⟨htop, hpath⟩ := hgraph.connected c hother
      obtain ⟨hid, habove⟩ := he.reaches hcovered hpos (hinside _ htop)
      exact ⟨hid, habove.trans (Block.Within.mono hinside hpath)⟩

end Placed

/-! ## Nested groups -/

/-- What an instantiation covers and reads is a subgraph below the node: its record is one, and each
of the choices is one below a node of the record. -/
theorem Match.Instantiates.subgraph {b : Block} {inc : Inclusion} {id : NodeId} {p : Pattern}
    {m : Match} {i : Instantiation} (hrooted : inc.Rooted) (hsub : inc.Subgraphs b)
    (hnd : p.root.idents.Nodup) (hm : p.matchWith b inc id = .ok (some m))
    (hi : m.Instantiates b i) : b.Subgraph id i.covered i.inputs := by
  obtain ⟨e, he⟩ := Pattern.matchWith_placed hm hnd
  cases hi with
  | intro allocated after chooses filled => exact he.subgraph hrooted hsub chooses

/-- However deep groups are nested, what is chosen for them is a subgraph. The induction is on the
layers, of which each includes only what the one below has found. -/
theorem Tables.subgraphs_alternatives {t : Tables} (ht : t.Distinct) (b : Block) (n : Nat) :
    (t.alternatives b n).Subgraphs b := by
  induction n with
  | zero =>
    intro g k ms h
    cases h
  | succ n ih =>
    intro g k ms h m hm i hi
    obtain ⟨q, hq, hqm⟩ := (mem_of_filterMapM h m).1 hm
    exact hi.subgraph (rooted_alternatives n) ih (ht.of_mem_group hq) hqm

/-! ## Fixed lowerings -/

/-- A fixed lowering is a subgraph: its node alone with its operands, or together with a comparison
among them, whose operands are then read as well. -/
theorem Lowering.Fixed.subgraph {b : Block} {id : NodeId} {n : Node} {reads : List NodeId}
    {t : Tile} (hn : b.node? id = some n) (h : Fixed b id n reads t) :
    b.Subgraph t.root t.covered t.inputs := by
  have hself : ∀ x, b.Operand id x ↔ x ∈ n.inputs := fun x => by simp [Block.Operand, hn]
  -- The one kind covers a single node, and the other a select with its comparison.
  cases h with
  | alone kind reads parts sound complete values =>
    constructor
    · simp [tile]
    · simp [tile]
    · intro c hc hfits x hx
      obtain rfl : c = id := by simpa [tile] using hc
      have hread := complete hfits x ((hself x).1 hx)
      simp only [tile, NodeSet.mem_ofList, NodeSet.mem_diff]
      tauto
    · intro x hx
      have hread : x ∈ reads := by simp_all [tile]
      exact .inr ⟨id, by simp [tile], (hself x).2 (sound x hread)⟩
    · intro c hc
      obtain rfl : c = id := by simpa [tile] using hc
      exact ⟨hc, .refl⟩
  | comparing cond yes no x y comparison parts operands found compared yields values =>
    have hcond : ∀ z, b.Operand cond z ↔ z = x ∨ z = y := fun z => by
      simp [Block.Operand, found, compared]
    simp only [operands, List.mem_cons, List.not_mem_nil, or_false] at hself
    constructor
    · simp [tile]
    · simp only [tile, NodeSet.mem_diff]
      tauto
    · intro c hc _ z hz
      simp only [tile, NodeSet.mem_ofList, NodeSet.mem_diff, List.mem_cons, List.not_mem_nil,
        or_false] at hc ⊢
      rcases hc with rfl | rfl
      · rw [hself] at hz
        tauto
      · rw [hcond] at hz
        tauto
    · intro z hz
      simp only [tile, NodeSet.mem_ofList, NodeSet.mem_diff, List.mem_cons, List.not_mem_nil,
        or_false] at hz ⊢
      rcases hz.1 with h | h | h | h
      · exact .inr ⟨id, .inl rfl, (hself z).2 (.inr (.inl h))⟩
      · exact .inr ⟨id, .inl rfl, (hself z).2 (.inr (.inr h))⟩
      · exact .inr ⟨cond, .inr rfl, (hcond z).2 (.inl h)⟩
      · exact .inr ⟨cond, .inr rfl, (hcond z).2 (.inr h)⟩
    · intro c hc
      have htop : id ∈ NodeSet.ofList [id, cond] := by simp
      refine ⟨htop, ?_⟩
      rcases List.mem_cons.1 (NodeSet.mem_ofList.1 hc) with rfl | hc'
      · exact .refl
      · rw [List.mem_singleton.1 hc']
        exact .single ⟨htop, by simp [tile], (hself cond).2 (.inl rfl)⟩

/-! ## Tiles -/

/-- The tile is rooted at the node, connected below it and closed under operands. -/
structure Tile.IsSubgraph (b : Block) (id : NodeId) (t : Tile) : Prop where
  root : t.root = id
  covers_root : id ∈ t.covered
  disjoint : ∀ x ∈ t.covered, ¬ x ∈ t.inputs
  closed : ∀ c ∈ t.covered, ∀ x, b.Operand c x → x ∈ t.covered ∨ x ∈ t.inputs
  read : ∀ x ∈ t.inputs, ∃ c ∈ t.covered, b.Operand c x
  connected : ∀ c ∈ t.covered, ReflTransGen (b.Within t.covered) id c

namespace Selector

variable {sel : Selector} {b : Block} {id : NodeId} {s s' : Session} {tiles : List Tile}
  {tile : Tile}

/-- An offered tile covers its root, and is a subgraph below it. It comes from a fixed lowering or
from an instantiation at that node. -/
theorem Offered.subgraph (ht : sel.tables.Distinct) (h : sel.Offered b id tile) :
    tile.root = id ∧ id ∈ tile.covered ∧ b.Subgraph id tile.covered tile.inputs := by
  cases h with
  | fixed found lowered =>
    have hgraph := lowered.subgraph found
    cases lowered with
    | alone => exact ⟨rfl, by simp [Lowering.tile], hgraph⟩
    | comparing => exact ⟨rfl, by simp [Lowering.tile], hgraph⟩
  | @pattern n stored p m i found candidate matched instantiated =>
    obtain ⟨hnd, hop⟩ := ht.of_mem_candidates candidate
    have hgraph : b.Subgraph id i.covered i.inputs :=
      instantiated.subgraph (Tables.rooted_alternatives _)
        (Tables.subgraphs_alternatives ht b _) hnd matched
    refine ⟨?_, ?_, hgraph⟩
    · have hrecord : i.toTile.root = i.record.root := rfl
      rw [hrecord, instantiated.record_eq]
      exact (Pattern.matchWith_head matched).2
    · -- The top of a candidate is an operation, which the match itself covers.
      obtain ⟨e, he⟩ := Pattern.matchWith_placed matched hnd
      have hcomputed : p.root.isComputed = true := by
        cases hroot : p.root with
        | node => rfl
        | producer | constant | inclusion | backreference =>
          rw [hroot] at hop
          cases hop
      have htop : id ∈ m.covered :=
        he.covered.2 ⟨[], p.root, Shape.at?_nil _, hcomputed, he.top⟩
      cases instantiated
      exact Match.mem_coveredWith.2 (.inl htop)

/-- **Tiles are rooted, connected subgraphs, closed under operands.** This holds for every tile
of every node, with every compiled table and all settings, if the nodes of the block have as
many operands as their operations take. -/
theorem selectNode_isSubgraph {source : String} (ht : Tables.ofSource source = .ok sel.tables)
    (hfits : ∀ x, b.Fits x) (h : sel.selectNode b id s = .ok (tiles, s')) (htile : tile ∈ tiles) :
    tile.IsSubgraph b id := by
  have hoffered := (accepted_selectNode h tile htile).1
  obtain ⟨hroot, htop, hgraph⟩ := hoffered.subgraph (Tables.distinct_of_ofSource ht)
  refine ⟨hroot, htop, hgraph.disjoint, fun c hc => hgraph.closed c hc (hfits c), ?_, ?_⟩
  · intro x hx
    rcases hgraph.read x hx with rfl | hoperand
    · exact absurd hx (hgraph.disjoint x htop)
    · exact hoperand
  · exact fun c hc => (hgraph.connected c hc).2

/-- Sums with a source that is a value or a number. -/
def sums : String :=
  "source: (<r> LOCAL) -> [<r>] | (<c> CONSTANT) -> [<c>];
   sum: (ADD (<a> LOCAL) <b> source) -> [MOV <out>, <a>] [ADD <out>, <b>];"

/-- An argument plus five. -/
def plusFive : Block := Build.finish ⟨"sums", "f", "entry"⟩ do
  let x ← Build.arg 0 .i32
  let five ← Build.int 5 .i32
  Build.op .add .i32 [x, five]

/-- The nodes of the block have as many operands as their operations ask for. -/
theorem fits_plusFive (x : NodeId) : plusFive.Fits x := by
  intro n k hn hk
  have hx : x < 3 := Block.node?_isSome_iff.1 ⟨n, hn⟩
  interval_cases x <;> cases hn <;> cases hk <;> rfl

set_option maxRecDepth 10000 in
/-- Selecting for the sum shows a tile that covers the number as well. -/
theorem exists_tile_plusFive :
    ∃ sel : Selector, Tables.ofSource sums = .ok sel.tables
      ∧ ∃ tiles s', sel.selectNode plusFive 2 .start = .ok (tiles, s')
          ∧ ∃ tile ∈ tiles, (tile.covered == .ofList [1, 2]) = true :=
  @exists_tile_of_check plusFive 2 sums _ .default _ rfl (by decide +kernel)

/-- One tile of the sum takes in the number, through the group. -/
theorem selectNode_isSubgraph_plusFive :
    ∃ sel : Selector, Tables.ofSource sums = .ok sel.tables
      ∧ ∃ tiles s', sel.selectNode plusFive 2 .start = .ok (tiles, s')
          ∧ ∃ tile ∈ tiles, tile.covered = .ofList [1, 2] ∧ tile.IsSubgraph plusFive 2 := by
  obtain ⟨sel, hsel, tiles, s', hrun, tile, htile, hcovered⟩ := exists_tile_plusFive
  exact ⟨sel, hsel, tiles, s', hrun, tile, htile, beq_iff_eq.1 hcovered,
    selectNode_isSubgraph hsel fits_plusFive hrun htile⟩

end Selector

end TileSelect
