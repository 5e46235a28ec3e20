import TileSelect.Proofs.Meaning.Pattern
import TileSelect.Proofs.Selection.Coverage
/-!
The tiles of 32-bit arithmetic compute what they cover.

A node that adds, subtracts, multiplies, negates or combines words bit by bit gets its tiles from
the bundled patterns alone. Those of its candidates that can match a 32-bit node pass the check of
`Pattern.computes`: that is a fact about the pattern file, and it is found by looking at the file.
Everything else is about all blocks. Whatever the operands are and in whatever order they are
matched, whichever fragments they are written as and wherever the constants among them end up in an
address, running a tile leaves the word of the node in its value.
-/

set_option autoImplicit false

namespace TileSelect

/-- Whether nodes of 32-bit arithmetic may get tiles from the pattern. -/
def Pattern.isArithmetic (p : Pattern) : Bool :=
  p.isStandalone && p.root.rootOp?.any (Operation.arithmetic.contains ·)
    && (p.root.requiredType?.isNone || p.root.requiredType? == some .i32)

theorem Operation.isFixed_of_arithmetic : ∀ op ∈ arithmetic, op.isFixed = false := by decide

/-- A node without a fixed lowering is left to the patterns. -/
theorem Block.lower_of_not_isFixed {b : Block} {id : NodeId} {n : Node} (hn : b.node? id = some n)
    (hfixed : n.op.isFixed = false) : b.lower id = .ok none := by
  rw [Block.lower, Block.node_eq_ok.2 hn, ok_bind]
  cases hop : n.op <;> rw [hop] at hfixed <;> first | rfl | cases hfixed

/-- In a block of words every known width is that of a word. Widths are known of nodes that yield
values, and all of these are words. -/
theorem Block.AllWords.typeOf? {b : Block} (h : b.AllWords) {x : NodeId} {ty : ValueType}
    (hx : b.typeOf? x = some ty) : ty = .i32 := by
  unfold Block.typeOf? at hx
  split at hx
  · rename_i n hn
    obtain ⟨v, hv, hty⟩ := Option.bind_eq_some_iff.1 hx
    rw [h x v ⟨n, hn, hv⟩] at hty
    exact (Option.some.inj hty).symm
  · cases hx

/-- Whether all values are words is checked node by node. -/
theorem Block.allWords_of_check {b : Block} (h : ∀ x < b.size, ∀ v, b.yielded? x = some v →
    b.widthOf? v = some .i32) : b.AllWords := by
  intro x v hv
  have hx : x < b.size := by
    obtain ⟨n, hn, -⟩ := hv
    exact node?_isSome_iff.1 ⟨n, hn⟩
  exact h x hx v (yields_iff.1 hv)

namespace Selector

set_option maxRecDepth 1000000 in
/-- Compiling the bundled file shows that its patterns for 32-bit arithmetic compute what they
stand for. -/
theorem x86_computes :
    ∃ ps, x86Tables = .ok (.ofPatterns ps)
      ∧ (ps.all fun p => p.isClear && (!p.isArithmetic || p.computes (.ofPatterns ps))) = true :=
  @Tables.ofSource_of_check x86Source _ _ rfl (by decide +kernel)

/-- What the check says: every pattern is clear, and every candidate for arithmetic, unless it asks
for another width, computes what its tree stands for. -/
theorem computes_x86 {t : Tables} (ht : x86Tables = .ok t) :
    (∀ g, ∀ q ∈ t.group g, q.isClear = true)
      ∧ ∀ op ∈ Operation.arithmetic, ∀ stored, ∀ p ∈ t.candidates op stored,
          p.isClear = true ∧ p.root.rootOp? = some op
            ∧ ((∀ ty, p.root.requiredType? = some ty → ty = .i32) → p.computes t = true) := by
  obtain ⟨ps, hps, hcheck⟩ := x86_computes
  rw [ht] at hps
  cases hps
  simp only [List.all_eq_true, Bool.and_eq_true, Bool.or_eq_true, Bool.not_eq_true'] at hcheck
  refine ⟨fun g q hq => (hcheck q (Tables.mem_group_ofPatterns.1 hq).1).1,
    fun op hop stored p hp => ?_⟩
  obtain ⟨hmem, hstandalone, hroot⟩ := Tables.mem_candidates_ofPatterns hp
  refine ⟨(hcheck p hmem).1, hroot, fun hwidth => (hcheck p hmem).2.resolve_left ?_⟩
  -- A pattern without a width, or of the right one, is among those that were checked.
  have hwidth' : p.root.requiredType? = none ∨ p.root.requiredType? = some .i32 := by
    cases hty : p.root.requiredType? with
    | none => exact .inl rfl
    | some ty => exact .inr (by rw [hwidth ty hty])
  rcases hwidth' with hty | hty <;>
    simp [Pattern.isArithmetic, hstandalone, hroot, hty, hop]

/-- The patterns that can match are those that ask for 32 bits or for no width at all: the node at
the top is a word. -/
theorem eq_i32_of_matchAt {t : Tables} {b : Block} {id : NodeId} {p : Pattern} {m : Match}
    (hwords : b.AllWords) (hp : p.isClear = true) (hm : t.matchAt b id p = .ok (some m))
    {op : Operation} (hroot : p.root.rootOp? = some op) :
    ∀ ty, p.root.requiredType? = some ty → ty = .i32 := by
  obtain ⟨e, he⟩ := Pattern.matchWith_placed hm (Pattern.nodup_of_isClear hp)
  have hlies := he.lies [] _ (Shape.at?_nil _)
  -- A width is asked for at an operation only, and the node that the operation lies on has that
  -- width.
  cases hshape : p.root with
  | node ident wanted op args =>
    rintro ty ⟨⟩
    rw [hshape] at hlies
    obtain ⟨htype, -⟩ := hlies
    rw [he.top, Block.hasType, beq_iff_eq] at htype
    exact hwords.typeOf? htype
  | producer | constant | inclusion | backreference =>
    rw [hshape] at hroot
    cases hroot

/-- **The tiles of 32-bit arithmetic compute what they cover.** Take a block whose operands form no
cycle, in which every node has a value of its own and every value is a 32-bit word, and a node of it
that does arithmetic. Selection with the bundled patterns has an answer, unless an operand is
missing from the block; and every tile in the answer computes the node, whatever words the nodes
have. -/
theorem selectNode_computes_x86 {sel : Selector} (ht : x86Tables = .ok sel.tables) {b : Block}
    (hacyclic : b.OperandsAcyclic) (hdistinct : b.DistinctValues) (hwords : b.AllWords)
    {id : NodeId} {n : Node} (hn : b.node? id = some n) (hop : n.op ∈ Operation.arithmetic)
    (s : Session) :
    (b.OperandsInRange → ∃ tiles s', sel.selectNode b id s = .ok (tiles, s'))
      ∧ ∀ tiles s', sel.selectNode b id s = .ok (tiles, s') →
          ∀ tile ∈ tiles, tile.Computes b id := by
  refine ⟨fun hrange => ?_, fun tiles s' h tile htile => ?_⟩
  · have hid : id < b.size := Block.node?_isSome_iff.1 ⟨n, hn⟩
    have hterm : sel.tables.Terminates b id := fun _ _ p _ =>
      Tables.matchAt_total (x86_tables ht).1 hacyclic hrange hid p
    obtain ⟨tiles, s₁, s', -, hselect⟩ := selectNode_eq_keep (s := s) hrange hid hterm sel.settings
    exact ⟨_, s', hselect⟩
  · -- Arithmetic has no fixed lowering, so the tile is an instantiation of some candidate.
    have hlower : b.lower id = .ok none :=
      Block.lower_of_not_isFixed hn (Operation.isFixed_of_arithmetic n.op hop)
    obtain ⟨stored, p, hp, m, i, hm, hi, rfl⟩ :=
      exists_candidate_of_selectNode hn hlower h tile htile
    obtain ⟨hclear, hpatterns⟩ := computes_x86 ht
    obtain ⟨hpclear, hroot, hcomputes⟩ := hpatterns n.op hop stored p hp
    exact Pattern.computes_of_instantiates (hcomputes (eq_i32_of_matchAt hwords hpclear hm hroot))
      hpclear hclear hacyclic hdistinct hwords hm hi

/-- An element of an array, added to an argument. -/
def indexed : Block := Build.finish ⟨"sums", "f", "entry"⟩ do
  let a ← Build.arg 0 .i32
  let p ← Build.arg 1 .pointer
  let i ← Build.arg 2 .i32
  let two ← Build.int 2 .i32
  let scaled ← Build.op .shl .i32 [i, two]
  let address ← Build.op .add .i32 [p, scaled]
  let element ← Build.load .i32 address none
  Build.op .add .i32 [element, a]

/-- Words for it, in a memory that holds at every address its half: five, a thousand, seven, two,
twenty-eight, and so on. -/
def indexedWords (id : NodeId) : Word := ([5, 1000, 7, 2, 28, 1028, 514, 519] : List Word).getD id 0

/-- The sum of an argument and an element of an array: selection has tiles for it that take in the
load with its index, and each of them leaves 519 in the value of the sum. -/
theorem selectNode_computes_x86_indexed :
    ∃ sel : Selector, x86Tables = .ok sel.tables ∧ indexed.OperandsAcyclic
      ∧ indexed.DistinctValues ∧ indexed.AllWords
      ∧ (∃ n, indexed.node? 7 = some n ∧ n.op ∈ Operation.arithmetic)
      ∧ indexed.Consistent ⟨(· / 2), fun _ => 0⟩ indexedWords
      ∧ ∃ tiles s', sel.selectNode indexed 7 .start = .ok (tiles, s') ∧ tiles ≠ []
          ∧ ∀ tile ∈ tiles, ∃ st', tile.run? ⟨(· / 2), fun _ => 0⟩ (State.set indexedWords 7 0)
              = some st' ∧ st' 7 = 519 := by
  obtain ⟨ps, hps, -⟩ := x86_computes
  have hbuilt : indexed.Built := .of_ordered (by decide) (by decide)
  have hdistinct : indexed.DistinctValues := Block.distinctValues_of_check (by decide)
  have hwords : indexed.AllWords := Block.allWords_of_check (by decide)
  have hconsistent : indexed.Consistent ⟨(· / 2), fun _ => 0⟩ indexedWords := by
    intro x n hn
    have hx : x < 8 := Block.node?_isSome_iff.1 ⟨n, hn⟩
    interval_cases x <;> cases hn
    · trivial
    · trivial
    · trivial
    · rfl
    · exact fun _ => rfl
    · rintro f ⟨⟩
      rfl
    · rfl
    · rintro f ⟨⟩
      rfl
  have hholds : indexed.HoldsAllBut 7 indexedWords (State.set indexedWords 7 0) := by
    -- In this block every node yields the value of its own number.
    have hown : ∀ x < 8, indexed.yielded? x = some x := by decide
    intro x v hx hv
    have hin : x < 8 := by
      obtain ⟨n, hn, -⟩ := hv
      exact Block.node?_isSome_iff.1 ⟨n, hn⟩
    have hvalue := (hown x hin).symm.trans (Block.yields_iff.1 hv)
    cases hvalue
    exact State.set_of_ne _ _ hx
  have hn : indexed.node? 7 = some ⟨.add, .value 7, [6, 0], none, none⟩ := rfl
  have hsel : x86Tables = .ok (Selector.mk (.ofPatterns ps) .default).tables := hps
  obtain ⟨tiles, s', hselect, hne⟩ := exists_tile_x86 hps hbuilt hn (by decide) .default .start
  obtain ⟨-, hcomputes⟩ := selectNode_computes_x86 hsel hbuilt.acyclic.operands hdistinct hwords hn
    (by decide) .start
  refine ⟨_, hsel, hbuilt.acyclic.operands, hdistinct, hwords, ⟨_, hn, by decide⟩, hconsistent,
    tiles, s', hselect, hne, fun tile htile => ?_⟩
  obtain ⟨st', hrun, hst'⟩ := hcomputes tiles s' hselect tile htile _ _ hconsistent _ hholds
  exact ⟨st', hrun, hst' 7 (Block.yields_iff.2 rfl)⟩

end Selector

end TileSelect
