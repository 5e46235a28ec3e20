import TileSelect.Block.Build
import TileSelect.Proofs.Block.Reachability
import TileSelect.Proofs.Match.Embedding
import TileSelect.Proofs.Tables
import TileSelect.Selection.Selector
/-!
Candidates: what the indexes pass over could not have matched.

Selection does not try every pattern at every node. It looks under the operation of the node, and
at a store also under the operation of the stored value, and whatever is filed elsewhere is never
tried. That is harmless because a match would have demanded just that operation: a pattern with an
operation at its top matches only nodes with this operation, and a store of an operation only
stores whose second operand has it. The second fact rests on the operands of a store being
matched in order, and on the count of operands being compared before any of them is looked at, so
that it holds for stores with too few or too many operands as well.

The two indexes share no pattern, so nothing is tried twice either. The order of the patterns is
kept but for one thing, that the stores of operations come after all others.
-/

set_option autoImplicit false

namespace TileSelect

/-! ## Operations of what matches -/

namespace Shape

variable {b : Block} {inc : Inclusion} {s : Shape} {id : NodeId} {r r' : Match} {op : Operation}

/-- A shape with an operation at its top matches only nodes with this operation. Other shapes say
nothing about the operation of the node that they match. -/
theorem op_of_attempt (h : attempt b inc s id r = .ok ⟨true, r'⟩) (hop : s.rootOp? = some op) :
    ∃ n, b.node? id = some n ∧ n.op = op := by
  cases s with
  | node ident ty op' args =>
    obtain ⟨n, operands, r₁, -, hn, hop', -⟩ := attempt_node_inv h
    rw [rootOp?, Option.some.injEq] at hop
    exact ⟨n, hn, hop'.trans hop⟩
  | producer | constant | inclusion | backreference => cases hop

/-- A store of an operation is a store whose second operand is that operation. -/
theorem eq_store_of_storedOp? (h : s.storedOp? = some op) :
    ∃ ident ty first value rest, s = .node ident ty .store (first :: value :: rest)
      ∧ value.rootOp? = some op := by
  unfold storedOp? at h
  split at h
  · exact ⟨_, _, _, _, _, rfl, h⟩
  · cases h

/-- A store of an operation matches only stores whose second operand has that operation. The
operands of a store are never exchanged. -/
theorem storedOp_of_attempt (h : attempt b inc s id r = .ok ⟨true, r'⟩)
    (hop : s.storedOp? = some op) :
    ∃ n, b.node? id = some n ∧ n.op = .store ∧ Selector.storedOp b n = .ok (some op) := by
  obtain ⟨ident, ty, first, value, rest, rfl, hvalue⟩ := eq_store_of_storedOp? hop
  obtain ⟨n, operands, r₁, -, hn, hstore, hlen, horder, hall, -⟩ := attempt_node_inv h
  -- A store does not commute, so its operands are matched in order.
  have hoperands : operands = n.inputs := by
    rcases horder with heq | ⟨hcomm, -⟩
    · exact heq
    · exact absurd hcomm (by decide)
  subst hoperands
  refine ⟨n, hn, hstore, ?_⟩
  match hinputs : n.inputs, hlen with
  | x :: y :: ids, _ =>
    rw [hinputs] at hall
    obtain ⟨r₂, -, hall⟩ := attemptAll_cons_inv hall
    obtain ⟨r₃, hsecond, -⟩ := attemptAll_cons_inv hall
    obtain ⟨w, hw, hwop⟩ := op_of_attempt hsecond hvalue
    rw [Selector.storedOp, hstore, hinputs]
    dsimp only
    rw [Block.node_eq_ok.2 hw, ok_bind, hwop]
    rfl

end Shape

/-- A pattern that selection may try: an operation is at its top, and its template can stand
alone. -/
def Pattern.isSelectable (p : Pattern) : Bool := p.root.rootOp?.isSome && p.isStandalone

namespace Tables

/-- Whether a pattern matches at a node. -/
def applies (t : Tables) (b : Block) (id : NodeId) (p : Pattern) : Bool :=
  match t.matchAt b id p with
  | .ok (some _) => true
  | _ => false

variable {t : Tables} {b : Block} {id : NodeId} {n : Node} {stored : Option Operation}
  {p : Pattern} {ps : List Pattern}

/-- A pattern that matches at a node has a tree that does. -/
theorem attempt_of_applies (h : t.applies b id p = true) :
    ∃ m, p.root.attempt b (t.included b) id (.start p id) = .ok ⟨true, m⟩ := by
  unfold applies at h
  split at h
  · rename_i m hm
    exact ⟨m, Pattern.matchWith_eq_some hm⟩
  · cases h

/-- A store of an operation is kept under that operation, and nothing else is. So a pattern is found
under at most one stored operation. -/
theorem storeKey?_iff {op : Operation} :
    p.storeKey? = some op ↔ p.isSelectable = true ∧ p.root.storedOp? = some op := by
  constructor
  · intro h
    obtain ⟨halone, hroot⟩ := candidate_of_storeKey? h
    rw [Pattern.storeKey?, if_pos halone] at h
    rw [Pattern.isSelectable, halone, hroot]
    exact ⟨rfl, h⟩
  · rintro ⟨hselect, h⟩
    rw [Pattern.isSelectable, Bool.and_eq_true] at hselect
    rw [Pattern.storeKey?, if_pos hselect.2]
    exact h

/-- Everything else that can be selected is kept under the operation at its top. With
`storeKey?_iff` this says where each pattern is: the two conditions exclude each other. -/
theorem rootKey?_iff {op : Operation} :
    p.rootKey? = some op
      ↔ p.isSelectable = true ∧ p.root.storedOp? = none ∧ p.root.rootOp? = some op := by
  rw [Pattern.rootKey?, Pattern.isSelectable, Pattern.candidateOp?]
  -- A store of an operation has the other key, so its own is empty; the rest is the operation at
  -- the top.
  cases hstored : p.root.storedOp? with
  | some v => simp
  | none =>
    by_cases halone : p.isStandalone = true
    · rw [if_pos halone, halone]
      cases p.root.rootOp? <;> simp
    · rw [if_neg halone]
      simp [halone]

/-- At a node where a pattern matches, the operation of the node finds it, unless it is a store of
an operation. Its top is then an operation, and the match compares it with that of the node. -/
theorem rootKey?_of_applies (hn : b.node? id = some n) (h : t.applies b id p = true) :
    p.rootKey? = some n.op ↔ p.isSelectable = true ∧ p.root.storedOp? = none := by
  rw [rootKey?_iff]
  obtain ⟨m, hm⟩ := attempt_of_applies h
  refine and_congr_right fun hselect => ⟨fun h' => h'.1, fun hnone => ⟨hnone, ?_⟩⟩
  rw [Pattern.isSelectable, Bool.and_eq_true] at hselect
  obtain ⟨op, hop⟩ := Option.isSome_iff_exists.1 hselect.1
  obtain ⟨n', hn', hop'⟩ := Shape.op_of_attempt hm hop
  rw [hn, Option.some.injEq] at hn'
  rw [hop, hn', hop']

/-- A store of an operation is found by the operation of the stored value, and by nothing else.
Together with the other key every pattern that matches is found once. -/
theorem storeKey?_of_applies (hn : b.node? id = some n)
    (hstored : Selector.storedOp b n = .ok stored) (h : t.applies b id p = true) :
    (n.op = .store ∧ ∃ v, stored = some v ∧ p.storeKey? = some v)
      ↔ p.isSelectable = true ∧ p.root.storedOp?.isSome = true := by
  constructor
  · rintro ⟨-, v, -, hkey⟩
    obtain ⟨hselect, hop⟩ := storeKey?_iff.1 hkey
    exact ⟨hselect, by rw [hop]; rfl⟩
  · rintro ⟨hselect, hsome⟩
    obtain ⟨v, hv⟩ := Option.isSome_iff_exists.1 hsome
    obtain ⟨m, hm⟩ := attempt_of_applies h
    -- The match has looked at the node and at what it stores, and these are the ones asked for
    -- here.
    obtain ⟨n', hn', hstore, hvalue⟩ := Shape.storedOp_of_attempt hm hv
    rw [hn, Option.some.injEq] at hn'
    subst hn'
    rw [hstored, Except.ok.injEq] at hvalue
    exact ⟨hstore, v, hvalue, storeKey?_iff.2 ⟨hselect, hv⟩⟩

/-- The candidates are two selections from the patterns, by their two keys. The indexes, which were
built one pattern at a time, do not show any more. -/
theorem candidates_ofPatterns (ps : List Pattern) (op : Operation) (stored : Option Operation) :
    (ofPatterns ps).candidates op stored
      = ps.filter (fun p => decide (p.rootKey? = some op))
        ++ ps.filter fun p =>
          decide (op = .store ∧ ∃ v, stored = some v ∧ p.storeKey? = some v) := by
  have hroot : (ofPatterns ps).byRoot.get op = ps.filter fun p => decide (p.rootKey? = some op) :=
    Index.get_ofList Pattern.rootKey? ps op
  have hstore : ∀ v, (ofPatterns ps).storeByValue.get v
      = ps.filter fun p => decide (p.storeKey? = some v) :=
    fun v => Index.get_ofList Pattern.storeKey? ps v
  unfold candidates
  rw [hroot]
  -- The first list is the same on both sides. The second is looked up only for a store whose stored
  -- operation is known; in all other cases the filter lets nothing through.
  congr 1
  split
  · rename_i v
    rw [hstore v]
    simp
  · rename_i hnone
    symm
    rw [List.filter_eq_nil_iff]
    intro p hp hdec
    obtain ⟨rfl, v, rfl, -⟩ := of_decide_eq_true hdec
    exact hnone v rfl rfl

/-! ## Candidates -/

/-- Where operands are in range, the stored operation can be determined: it is looked up at the last
operand of a store, which is in the block, and other nodes are not asked. -/
theorem exists_storedOp (hr : b.OperandsInRange) (hn : b.node? id = some n) :
    ∃ stored, Selector.storedOp b n = .ok stored := by
  unfold Selector.storedOp
  split
  · rename_i first value rest hop hinputs
    have hmem : value ∈ n.inputs := by
      rw [hinputs]
      exact List.mem_cons_of_mem _ List.mem_cons_self
    obtain ⟨w, hw⟩ := Block.node?_isSome_iff.2 (hr id value ⟨n, hn, hmem⟩)
    exact ⟨some w.op, by rw [Block.node_eq_ok.2 hw]; rfl⟩
  · exact ⟨none, rfl⟩

/-- Of the patterns that match at a node, the candidates are those that can be selected. The
stores of an operation come last; that is all that is lost of the order. -/
theorem perm_candidates (hn : b.node? id = some n) (hstored : Selector.storedOp b n = .ok stored) :
    (((ofPatterns ps).candidates n.op stored).filter ((ofPatterns ps).applies b id)).Perm
      (ps.filter fun p => p.isSelectable && (ofPatterns ps).applies b id p) := by
  have hsplit := List.filter_append_perm (fun p : Pattern => p.root.storedOp?.isNone)
    (ps.filter fun p => p.isSelectable && (ofPatterns ps).applies b id p)
  refine List.Perm.trans (List.Perm.of_eq ?_) hsplit
  rw [candidates_ofPatterns, List.filter_append]
  simp only [List.filter_filter]
  congr 1
  · -- A pattern that matches is found by its own operation exactly if it is no store of an
    -- operation.
    refine List.filter_congr fun p _ => ?_
    by_cases h : (ofPatterns ps).applies b id p = true
    · have hkey := rootKey?_of_applies hn h
      rw [Bool.eq_iff_iff]
      simp [h, hkey, and_comm]
    · simp [h]
  · refine List.filter_congr fun p _ => ?_
    by_cases h : (ofPatterns ps).applies b id p = true
    · have hkey := storeKey?_of_applies hn hstored h
      rw [Bool.eq_iff_iff, Bool.and_eq_true, decide_eq_true_iff, hkey]
      simp [h, and_comm, Option.isSome_iff_ne_none]
    · simp [h]

/-- **The indexes lose nothing and repeat nothing.** At every node of a block with its operands
in range, the candidates that match are the patterns that match, have an operation at their top
and a template that can stand alone, each as often as it was given. The tables list what they
were made of, with the order inside each group kept; compiled patterns are numbered by their
place in the group. -/
theorem candidates_lossless (ps : List Pattern) (hr : b.OperandsInRange) (hid : id < b.size) :
    (∃ n stored, b.node? id = some n ∧ Selector.storedOp b n = .ok stored
      ∧ (((ofPatterns ps).candidates n.op stored).filter ((ofPatterns ps).applies b id)).Perm
          (ps.filter fun p => p.isSelectable && (ofPatterns ps).applies b id p))
    ∧ (ofPatterns ps).patterns.Perm ps
    ∧ (∀ g, (ofPatterns ps).patterns.filter (fun p => decide (p.id.group = g))
        = ps.filter fun p => decide (p.id.group = g))
    ∧ ∀ source t, ofSource source = .ok t →
        ∀ (g : String) (i : Nat) (p : Pattern), (t.group g)[i]? = some p → p.id = ⟨g, i⟩ := by
  obtain ⟨n, hn⟩ := Block.node?_isSome_iff.2 hid
  obtain ⟨stored, hstored⟩ := exists_storedOp hr hn
  obtain ⟨hperm, horder⟩ := patterns_ofPatterns ps
  refine ⟨⟨n, stored, hn, hstored, perm_candidates hn hstored⟩, hperm, horder, ?_⟩
  intro source t ht g i p hp
  exact id_of_ofSource ht hp

/-- Stores in all shapes: of a sum, given twice, of anything, and with an operand too many. -/
def stores : List Pattern :=
  [⟨⟨"store", 0⟩, .node none none .store [.producer none none, .node none none .add
      [.producer none none, .producer none none]], []⟩,
   ⟨⟨"store", 1⟩, .node none none .store [.producer none none, .producer none none], []⟩,
   ⟨⟨"store", 0⟩, .node none none .store [.producer none none, .node none none .add
      [.producer none none, .producer none none]], []⟩,
   ⟨⟨"wide", 0⟩, .node none none .store [.producer none none, .node none none .add [],
      .producer none none], []⟩,
   ⟨⟨"operand", 0⟩, .node none none .store [.producer none none, .producer none none],
      [.symbol "s"]⟩]

/-- A sum is stored. -/
def storing : Block := Build.finish ⟨"stores", "f", "entry"⟩ do
  let p ← Build.arg 0 .i32
  let sum ← Build.op .add .i32 [p, p]
  Build.store p sum none

/-- Where a sum is stored, three of the stores match, one of them given twice, and the indexes find
all three: twice under the sum and once under stores of anything. -/
theorem candidates_lossless_storing :
    storing.OperandsInRange ∧ 2 < storing.size
      ∧ ∃ found, ((ofPatterns stores).candidates .store (some .add)).filter
            ((ofPatterns stores).applies storing 2) = found
          ∧ found.Perm (stores.filter fun p =>
              p.isSelectable && (ofPatterns stores).applies storing 2 p)
          ∧ found.map Pattern.id = [⟨"store", 1⟩, ⟨"store", 0⟩, ⟨"store", 0⟩] := by
  have hrange : storing.OperandsInRange := (Block.Ordered.inRange (by decide)).operands
  obtain ⟨⟨n, stored, hn, hstored, hperm⟩, -⟩ :=
    @candidates_lossless storing 2 stores hrange (by decide)
  cases hn
  cases hstored
  exact ⟨hrange, by decide, _, rfl, hperm, rfl⟩

end Tables

end TileSelect
