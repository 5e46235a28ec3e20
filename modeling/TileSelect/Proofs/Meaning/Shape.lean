import TileSelect.Proofs.Match.Exactness
import TileSelect.Proofs.Meaning.Formula
/-!
What the tree of a pattern says about words.

A tree with names at its leaves is a formula over these names, as far as its operations are those of
arithmetic. Where the tree lies on nodes of a block, the formula is the word of the node at the top,
provided that each name is the word of the node it lies on. The operands of a node may have been
matched in the opposite order; then the operation commutes, and so do the words.
-/

set_option autoImplicit false

namespace TileSelect

namespace Shape

/-- Whether the shape asks for the number two. -/
def isTwo : Shape → Bool
  | .constant _ _ (some v) => v == 2
  | _ => false

/-- The formula of an operation, given its arguments and their formulas. -/
def operation? (op : Operation) (args : List Shape) : List Formula → Option Formula
  | [s] => if op = .load then some (.memory s) else op.unary?.map fun f => .unary f s
  | [s, t] =>
    if op = .shl then if args[1]?.any isTwo then some (.binary .mul s (.number 4)) else none
    else op.binary?.map fun f => .binary f s t
  | _ => none

mutual

/-- The formula of a shape, given those of included groups. -/
def formula? (included : String → String → Option Formula) : Shape → Option Formula
  | .node _ _ op args => do
    let ss ← formulas? included args
    operation? op args ss
  | .producer ident _ => ident.map fun i => .name [i]
  | .constant ident _ value =>
    match value with
    | some v => some (.number (.ofNumber v))
    | none => ident.map fun i => .name [i]
  | .inclusion ident group => included ident group
  | .backreference _ => none

/-- The formulas of several shapes. -/
def formulas? (included : String → String → Option Formula) : List Shape → Option (List Formula)
  | [] => some []
  | s :: ss => do
    let first ← formula? included s
    let rest ← formulas? included ss
    return first :: rest

end

variable {included : String → String → Option Formula} {b : Block} {w : World}
  {word : NodeId → Word} {env : List String → Word}

/-- The formulas of several shapes are the formulas of each, in order, so that arguments and
operands can be compared place by place. -/
theorem forall₂_of_formulas? {ss : List Shape} {fs : List Formula}
    (h : formulas? included ss = some fs) :
    List.Forall₂ (fun s f => s.formula? included = some f) ss fs := by
  induction ss generalizing fs with
  | nil =>
    cases h
    exact .nil
  | cons s ss ih =>
    simp only [formulas?, Option.bind_eq_bind, Option.bind_eq_some_iff] at h
    obtain ⟨first, hfirst, rest, hrest, hcons⟩ := h
    cases hcons
    exact .cons hfirst (ih hrest)

/-- Two operands, in the order of the arguments or, if the operation commutes, in the opposite one.
-/
theorem InOrder.pair {op : Operation} {x y : NodeId} {child : Nat → NodeId}
    (h : InOrder op [x, y] child) :
    (child 0 = x ∧ child 1 = y) ∨ (op.isCommutative = true ∧ child 0 = y ∧ child 1 = x) := by
  rcases h with h | ⟨hcomm, -, h⟩
  · exact .inl ⟨h 0 x rfl, h 1 y rfl⟩
  · exact .inr ⟨hcomm, h 0 y rfl, h 1 x rfl⟩

/-- One operand is where its argument is, whatever the operation. -/
theorem InOrder.single {op : Operation} {x : NodeId} {child : Nat → NodeId}
    (h : InOrder op [x] child) : child 0 = x := by
  rcases h with h | ⟨-, hlength, -⟩
  · exact h 0 x rfl
  · cases hlength

/-- **An operation on the words of its operands gives the word of the node.** Where the operands may
have been exchanged the operation commutes, so that the order of its arguments does not matter. -/
theorem eval_operation? (hword : b.Consistent w word) {id : NodeId} {n : Node}
    {op : Operation} {args : List Shape} {child : Nat → NodeId} {fs : List Formula} {f : Formula}
    (hn : b.node? id = some n) (hop : n.op = op) (horder : InOrder op n.inputs child)
    (hlength : n.inputs.length = fs.length)
    (hfs : ∀ k g, fs[k]? = some g → g.eval w env = word (child k))
    (htwo : args[1]?.any isTwo = true → (b.node? (child 1)).bind Node.literal? = some 2)
    (h : operation? op args fs = some f) : f.eval w env = word id := by
  match fs with
  | [s] =>
    obtain ⟨x, hx⟩ := List.length_eq_one_iff.1 hlength
    rw [hx] at horder
    have hs := hfs 0 s rfl
    rw [horder.single] at hs
    rw [operation?] at h
    split at h
    · rename_i hload
      cases h
      rw [Formula.eval, hs, hword.load hn (hop.trans hload) hx]
    · obtain ⟨g, hg, rfl⟩ := Option.map_eq_some_iff.1 h
      rw [Formula.eval, hs, hword.unary hn (hop ▸ hg) hx]
  | [s, t] =>
    obtain ⟨x, y, hxy⟩ := List.length_eq_two.1 hlength
    rw [hxy] at horder
    have hs := hfs 0 s rfl
    have ht := hfs 1 t rfl
    rw [operation?] at h
    split at h
    · rename_i hshl
      split at h
      · cases h
        -- A shift does not commute, so the count is the second operand.
        rcases horder.pair with ⟨h₀, h₁⟩ | ⟨hcomm, -⟩
        · rw [Formula.eval, hs, h₀, hword.shl hn (hop.trans hshl) hxy (h₁ ▸ htwo ‹_›)]
          rfl
        · rw [hshl] at hcomm
          cases hcomm
      · cases h
    · obtain ⟨g, hg, rfl⟩ := Option.map_eq_some_iff.1 h
      rw [Formula.eval, hs, ht, hword.binary hn (hop ▸ hg) hxy]
      rcases horder.pair with ⟨h₀, h₁⟩ | ⟨hcomm, h₀, h₁⟩
      · rw [h₀, h₁]
      · rw [h₀, h₁, Binary.apply_comm hg hcomm]
  | [] | _ :: _ :: _ :: _ => cases h

/-- **The formula of a shape is the word of the node it lies on.** The induction is on the shape: a
name stands for the word of its node, a constant for its number, an inclusion for what is known of
its group, and an operation for what it does to its arguments. -/
theorem eval_formula? (hword : b.Consistent w word) {admits refers : String → NodeId → Prop}
    (s : Shape) {e : Embedding} {f : Formula} (hlies : s.Everywhere e (LiesOn b admits refers))
    (hcaptured : ∀ pos s' i, s.at? pos = some s' → s'.captured? = some i → env [i] = word (e pos))
    (hincluded : ∀ pos i g f, s.at? pos = some (.inclusion i g) → included i g = some f →
      f.eval w env = word (e pos))
    (h : s.formula? included = some f) : f.eval w env = word (e []) := by
  induction s using Shape.induction generalizing e f with
  | node ident ty op args ih =>
    rw [formula?] at h
    obtain ⟨fs, hfs, h⟩ := Option.bind_eq_some_iff.1 h
    have hforall := forall₂_of_formulas? hfs
    obtain ⟨⟨-, n, hn, hop, hlength, horder⟩, hchildren⟩ := everywhere_node.1 hlies
    refine eval_operation? hword hn hop horder (hlength.trans hforall.length_eq) ?_ ?_ h
    · -- Positions in an argument are positions in the whole, one step further down.
      intro k g hg
      obtain ⟨hk, rfl⟩ := List.getElem?_eq_some_iff.1 hg
      have hk' : k < args.length := hforall.length_eq ▸ hk
      have ha : args[k]? = some args[k] := List.getElem?_eq_getElem hk'
      have hat : ∀ pos s', args[k].at? pos = some s' →
          (node ident ty op args).at? (k :: pos) = some s' := fun pos s' hpos =>
        (at?_node_cons _ _ _ _ _ _ _).2 ⟨_, ha, hpos⟩
      exact ih _ (List.getElem_mem hk') (hchildren k _ ha)
        (fun pos s' i hpos => hcaptured _ s' i (hat pos s' hpos))
        (fun pos i g f hpos => hincluded _ i g f (hat pos _ hpos)) (hforall.get hk' hk)
    · intro htwo
      obtain ⟨a, ha, htwo⟩ := (Option.any_eq_true _ _).1 htwo
      have hlies := hchildren 1 a ha [] a (at?_nil a)
      unfold isTwo at htwo
      split at htwo
      · obtain ⟨-, m, hm, -, -, hliteral⟩ := hlies
        rw [hm, Option.bind_some, hliteral _ rfl, beq_iff_eq.1 htwo]
      · cases htwo
  | producer ident ty =>
    obtain ⟨i, rfl, rfl⟩ := Option.map_eq_some_iff.1 h
    exact hcaptured [] _ i (at?_nil _) rfl
  | constant ident ty value =>
    cases value with
    | none =>
      obtain ⟨i, rfl, rfl⟩ := Option.map_eq_some_iff.1 h
      exact hcaptured [] _ i (at?_nil _) rfl
    | some v =>
      cases h
      obtain ⟨-, n, hn, -, -, hliteral⟩ := hlies [] _ (at?_nil _)
      exact (hword.literal hn (hliteral v rfl)).symm
  | inclusion ident group => exact hincluded [] ident group f (at?_nil _) h
  | backreference ident => cases h

end Shape

end TileSelect
