import TileSelect.Lowering
import TileSelect.Proofs.Asm.Values
import TileSelect.Proofs.Block.Reachability
/-!
What fixed lowerings are made of.

Ten kinds of nodes have a fixed lowering, and they differ in their instructions. As to what is
covered and what is read there are only two kinds of tiles: one that covers its node and reads
operands of it, and the select that takes in the comparison which decides it. `Lowering.Fixed`
lists the two, with the values that occur in their instructions, and every tile of a lowering is
one of them.
-/

set_option autoImplicit false

namespace TileSelect

namespace Lowering

variable {α β : Type} {b : Block} {id : NodeId} {n : Node} {p out : Part} {tiles : List Tile}

/-! ## Steps that may come to nothing -/

/-- Two steps give a result if each does. A step may also come to nothing, without a fault, and then
so do the two together. -/
theorem attempted_bind {x : Attempted α} {f : α → Attempted β} {y : β} :
    (x >>= f).run = .ok (some y) ↔ ∃ a, x.run = .ok (some a) ∧ (f a).run = .ok (some y) := by
  rw [OptionT.run_bind, Option.elimM, bind_eq_ok]
  constructor
  · rintro ⟨o, ho, h⟩
    cases o with
    | none => cases h
    | some a => exact ⟨a, ho, h⟩
  · rintro ⟨a, ha, h⟩
    exact ⟨some a, ha, h⟩

/-- The operand of an instruction is the value of its node. -/
theorem operand_eq_some (h : (operand b id).run = .ok (some p)) : b.valueOf? id = some p := by
  rw [operand, OptionT.run_mk, bind_eq_ok] at h
  obtain ⟨n, -, h⟩ := h
  exact pure_eq_ok.1 h

theorem given_eq_some {o : Option α} {a : α} (h : (given o).run = .ok (some a)) : o = some a := by
  cases h
  rfl

/-! ## Values in the instructions -/

/-- Only the destination's values and those of the two words occur when halves are moved, one move
for each half of the destination. -/
theorem values_movIntoHalves {low high : Part} {parts : List Part}
    (h : movIntoHalves out low high = some parts) {v : Nat} (hv : v ∈ Part.valuesOfAll parts) :
    v ∈ out.values ∨ v ∈ low.values ∨ v ∈ high.values := by
  rw [movIntoHalves, Option.bind_eq_bind, Option.bind_eq_some_iff] at h
  obtain ⟨outLow, hlow, h⟩ := h
  obtain ⟨outHigh, hhigh, h⟩ := Option.bind_eq_some_iff.1 h
  cases h
  simp only [mov, Part.valuesOfAll_cons, Part.values_plain, Part.valuesOfAll_nil, List.append_nil,
    Part.values_slice? hlow, Part.values_slice? hhigh, List.mem_append] at hv
  grind

/-- A value is pushed whole or in halves, and no other value occurs. Which of the two it is depends
on its width alone. -/
theorem values_pushParts {parts : List Part} (h : pushParts p = some parts) {v : Nat}
    (hv : v ∈ Part.valuesOfAll parts) : v ∈ p.values := by
  rw [pushParts] at h
  split at h
  · rw [Option.bind_eq_bind, Option.bind_eq_some_iff] at h
    obtain ⟨high, hhigh, h⟩ := h
    obtain ⟨low, hlow, h⟩ := Option.bind_eq_some_iff.1 h
    cases h
    simpa [Part.values_slice? hlow, Part.values_slice? hhigh] using hv
  · cases h
    simpa using hv

/-- A value is returned whole or in halves, in registers that are fixed, so that no other value
occurs. -/
theorem values_returnParts {parts : List Part} (h : returnParts p = some parts) {v : Nat}
    (hv : v ∈ Part.valuesOfAll parts) : v ∈ p.values := by
  rw [returnParts] at h
  split at h
  · rw [Option.bind_eq_bind, Option.bind_eq_some_iff] at h
    obtain ⟨low, hlow, h⟩ := h
    obtain ⟨high, hhigh, h⟩ := Option.bind_eq_some_iff.1 h
    cases h
    simpa [mov, Part.values, Part.values_slice? hlow, Part.values_slice? hhigh] using hv
  · cases h
    simpa [mov, Part.values] using hv

/-- Only the values of the arguments occur when they are pushed. The induction is on the arguments,
each of which adds its own instructions. -/
theorem values_pushAll {args : List NodeId} {parts : List Part}
    (h : (pushAll b args).run = .ok (some parts)) {v : Nat} (hv : v ∈ Part.valuesOfAll parts) :
    ∃ x ∈ args, b.Yields x v := by
  induction args generalizing parts with
  | nil =>
    cases h
    cases hv
  | cons x args ih =>
    rw [pushAll, attempted_bind] at h
    obtain ⟨value, hvalue, h⟩ := h
    obtain ⟨pushes, hpushes, h⟩ := attempted_bind.1 h
    obtain ⟨rest, hrest, h⟩ := attempted_bind.1 h
    cases h
    rw [Part.valuesOfAll_append, List.mem_append] at hv
    rcases hv with hv | hv
    · have hmem := values_pushParts (given_eq_some hpushes) hv
      exact ⟨x, List.mem_cons_self,
        (Block.mem_values_of_valueOf? (operand_eq_some hvalue) v).1 hmem⟩
    · obtain ⟨y, hy, hyields⟩ := ih hrest hv
      exact ⟨y, List.mem_cons_of_mem x hy, hyields⟩

/-! ## The two kinds of tiles -/

/-- A tile of the fixed lowering of a node, and the nodes it was made to read: it covers the node
and reads operands of it, or it is that of a select and takes in the comparison. -/
inductive Fixed (b : Block) (id : NodeId) (n : Node) : List NodeId → Tile → Prop
  | alone (kind : IntrinsicKind) (reads : List NodeId) (parts : List Part)
      (sound : ∀ x ∈ reads, x ∈ n.inputs) (complete : b.Fits id → ∀ x ∈ n.inputs, x ∈ reads)
      (values : ∀ v ∈ Part.valuesOfAll parts, ∃ x, (x = id ∨ x ∈ reads) ∧ b.Yields x v) :
      Fixed b id n reads (tile id kind [id] reads parts)
  | comparing (cond yes no x y : NodeId) (comparison : Node) (parts : List Part)
      (operands : n.inputs = [cond, yes, no]) (found : b.node? cond = some comparison)
      (compared : comparison.inputs = [x, y])
      (yields : ∀ z ∈ [yes, no, x, y], ∃ v, b.Yields z v)
      (values : ∀ v, v ∈ Part.valuesOfAll parts ↔ ∃ z ∈ [id, yes, no, x, y], b.Yields z v) :
      Fixed b id n [yes, no, x, y] (tile id .selectCompare [id, cond] [yes, no, x, y] parts)

/-- A node whose operation takes no operands has none, if its count fits. -/
theorem inputs_eq_nil (hn : b.node? id = some n) (hop : n.op.arity = some 0) (h : b.Fits id) :
    n.inputs = [] :=
  List.length_eq_zero_iff.1 (h n 0 hn hop)

/-- A tile without reads, for a node that takes no operands. -/
theorem Fixed.leaf (hn : b.node? id = some n) (hop : n.op.arity = some 0) (kind : IntrinsicKind)
    {parts : List Part} (hv : ∀ v ∈ Part.valuesOfAll parts, b.Yields id v) :
    Fixed b id n [] (tile id kind [id] [] parts) :=
  .alone kind [] parts (by simp)
    (fun hfits x hx => by rw [inputs_eq_nil hn hop hfits] at hx; exact hx)
    fun v hmem => ⟨id, .inl rfl, hv v hmem⟩

/-- An argument covers its node and reads nothing; a wide one is moved in two halves from the frame.
Places in the frame are addressed by a register and mention no values. -/
theorem fixed_arg (hn : b.node? id = some n) (hop : n.op = .arg) (h : arg b id n = some tiles) :
    ∀ t ∈ tiles, ∃ reads, Fixed b id n reads t := by
  unfold arg at h
  split at h
  · rename_i index _
    rw [Option.bind_eq_bind, Option.bind_eq_some_iff] at h
    obtain ⟨out, hout, h⟩ := h
    -- A place in the frame is an address without values.
    have hword : ∀ offset, (frame offset).values = [] := fun _ => rfl
    dsimp only at h
    split at h
    · obtain ⟨parts, hparts, h⟩ := Option.bind_eq_some_iff.1 h
      cases h
      intro t ht
      rw [List.mem_singleton.1 ht]
      refine ⟨_, .leaf hn (by rw [hop]; rfl) _ fun v hv => ?_⟩
      rw [← Block.mem_values_of_valueOf? hout]
      simpa [hword] using values_movIntoHalves hparts hv
    · cases h
      intro t ht
      rw [List.mem_singleton.1 ht]
      refine ⟨_, .leaf hn (by rw [hop]; rfl) _ fun v hv => ?_⟩
      rw [← Block.mem_values_of_valueOf? hout]
      simpa [mov, hword] using hv
  · cases h

/-- A constant is a number or a symbol and contains no value. -/
theorem values_constantOperand? (h : constantOperand? b id n = some p) : p.values = [] := by
  unfold constantOperand? at h
  split at h <;> cases h <;> rfl

/-- A constant covers its node and reads nothing; a wide one is moved in two halves. What is moved
is a number or a symbol. -/
theorem fixed_constant (hn : b.node? id = some n) (hop : n.op = .constant)
    (h : constant b id n = some tiles) : ∀ t ∈ tiles, ∃ reads, Fixed b id n reads t := by
  rw [constant, Option.bind_eq_bind, Option.bind_eq_some_iff] at h
  obtain ⟨out, hout, h⟩ := h
  obtain ⟨src, hsrc, h⟩ := Option.bind_eq_some_iff.1 h
  have hnone := values_constantOperand? hsrc
  dsimp only at h
  split at h
  · obtain ⟨low, hlow, h⟩ := Option.bind_eq_some_iff.1 h
    obtain ⟨high, hhigh, h⟩ := Option.bind_eq_some_iff.1 h
    obtain ⟨parts, hparts, h⟩ := Option.bind_eq_some_iff.1 h
    cases h
    intro t ht
    rw [List.mem_singleton.1 ht]
    refine ⟨_, .leaf hn (by rw [hop]; rfl) _ fun v hv => ?_⟩
    rw [← Block.mem_values_of_valueOf? hout]
    simpa [Part.values_slice? hlow, Part.values_slice? hhigh, hnone]
      using values_movIntoHalves hparts hv
  · cases h
    intro t ht
    rw [List.mem_singleton.1 ht]
    refine ⟨_, .leaf hn (by rw [hop]; rfl) _ fun v hv => ?_⟩
    rw [← Block.mem_values_of_valueOf? hout]
    simpa [mov, hnone] using hv

/-- The address of a slot covers its node and reads nothing: it is computed from the frame alone. -/
theorem fixed_slot (hn : b.node? id = some n) (hop : n.op = .slot)
    (h : slot b id n = some tiles) : ∀ t ∈ tiles, ∃ reads, Fixed b id n reads t := by
  unfold slot at h
  split at h
  · rw [Option.bind_eq_bind, Option.bind_eq_some_iff] at h
    obtain ⟨out, hout, h⟩ := h
    cases h
    intro t ht
    rw [List.mem_singleton.1 ht]
    refine ⟨_, .leaf hn (by rw [hop]; rfl) _ fun v hv => ?_⟩
    have hword : ∀ offset, (frame offset).values = [] := fun _ => rfl
    rw [← Block.mem_values_of_valueOf? hout]
    simpa [hword] using hv
  · cases h

/-- The tile that takes in the comparison of a select, if there is one. It covers the comparison
with the select and reads the operands of both, except for the comparison itself. -/
theorem fixed_selectCompare {cond yesId noId : NodeId} {yes no : Part}
    (hinputs : n.inputs = [cond, yesId, noId]) (hout : b.valueOf? id = some out)
    (hyes : b.valueOf? yesId = some yes) (hno : b.valueOf? noId = some no)
    (h : selectCompare b id cond yesId noId out yes no = .ok tiles) :
    ∀ t ∈ tiles, ∃ reads, Fixed b id n reads t := by
  rw [selectCompare, bind_eq_ok] at h
  obtain ⟨comparison, hcomparison, h⟩ := h
  rw [Block.node_eq_ok] at hcomparison
  split at h
  · rename_i condition x y _ hcompared
    obtain ⟨-, -, h⟩ := bind_eq_ok.1 h
    obtain ⟨-, -, h⟩ := bind_eq_ok.1 h
    split at h
    · rename_i left right hleft hright
      rw [pure_eq_ok] at h
      subst h
      intro t ht
      rw [List.mem_singleton.1 ht]
      -- All four values are values of nodes.
      have hyields : ∀ {z : NodeId} {p : Part}, b.valueOf? z = some p → ∃ v, b.Yields z v := by
        intro z p hp
        obtain ⟨v, -, -, hv⟩ := Block.valueOf?_eq_some hp
        exact ⟨v, hv⟩
      refine ⟨_, .comparing cond yesId noId x y comparison _ hinputs hcomparison hcompared
        (by simp [hyields hyes, hyields hno, hyields hleft, hyields hright]) fun v => ?_⟩
      simp only [selectParts, mov, Part.valuesOfAll_cons, Part.values_plain,
        Part.values_instruction, Part.valuesOfAll_nil, List.append_nil, List.mem_append,
        Block.mem_values_of_valueOf? hout, Block.mem_values_of_valueOf? hyes,
        Block.mem_values_of_valueOf? hno, Block.mem_values_of_valueOf? hleft,
        Block.mem_values_of_valueOf? hright, List.mem_cons, List.not_mem_nil, or_false,
        exists_eq_or_imp, exists_eq_left]
      grind
    · cases h
      exact fun t ht => absurd ht List.not_mem_nil
  · cases h
    exact fun t ht => absurd ht List.not_mem_nil

/-- A select is one tile that reads its three operands, and possibly another one that takes in the
comparison, which is a tile of the second kind. -/
theorem fixed_select (h : (select b id n).run = .ok (some tiles)) :
    ∀ t ∈ tiles, ∃ reads, Fixed b id n reads t := by
  unfold select at h
  split at h
  · rename_i cond yesId noId hinputs
    obtain ⟨out, hout, h⟩ := attempted_bind.1 h
    obtain ⟨yes, hyes, h⟩ := attempted_bind.1 h
    obtain ⟨no, hno, h⟩ := attempted_bind.1 h
    obtain ⟨condition, hcond, h⟩ := attempted_bind.1 h
    obtain ⟨wider, hwider, h⟩ := attempted_bind.1 h
    replace hout := operand_eq_some hout
    replace hyes := operand_eq_some hyes
    replace hno := operand_eq_some hno
    replace hcond := operand_eq_some hcond
    cases h
    intro t ht
    rcases List.mem_cons.1 ht with rfl | ht
    · refine ⟨_, .alone .select [cond, yesId, noId] _ (by simp [hinputs]) (by simp [hinputs])
        fun v hv => ?_⟩
      -- The values in the instructions are those of the node and of its operands.
      simp only [selectParts, mov, Part.valuesOfAll_cons, Part.values_plain,
        Part.values_instruction, Part.valuesOfAll_nil, List.append_nil, List.mem_append,
        Block.mem_values_of_valueOf? hout, Block.mem_values_of_valueOf? hyes,
        Block.mem_values_of_valueOf? hno, Block.mem_values_of_valueOf? hcond] at hv
      grind
    · -- The second tile is the other function's.
      have hlift : selectCompare b id cond yesId noId out yes no = .ok wider := by
        obtain ⟨a, ha, hsome⟩ := bind_eq_ok.1 hwider
        cases hsome
        exact ha
      exact fixed_selectCompare hinputs hout hyes hno hlift t ht
  · cases h

/-- The callee of a call and its arguments are its operands. A symbol as callee is not an operand
and reads nothing. -/
theorem callee_eq_some {args read : List NodeId} {target : Part}
    (h : (callee b n).run = .ok (some (target, args, read))) :
    read ++ args = n.inputs ∧ ∀ v ∈ target.values, ∃ x ∈ read, b.Yields x v := by
  unfold callee at h
  split at h
  · cases h
    exact ⟨rfl, fun v hv => absurd hv List.not_mem_nil⟩
  · split at h
    · cases h
    · rename_i first args' hinputs
      obtain ⟨p, hp, h⟩ := attempted_bind.1 h
      cases h
      refine ⟨hinputs.symm, fun v hv => ⟨first, List.mem_singleton.2 rfl, ?_⟩⟩
      exact (Block.mem_values_of_valueOf? (operand_eq_some hp) v).1 hv

/-- The result of a call is moved out of fixed registers into the value of the node, and no other
value occurs. A call without a result moves nothing. -/
theorem values_resultParts {parts : List Part} (h : resultParts b id n = some parts) {v : Nat}
    (hv : v ∈ Part.valuesOfAll parts) : b.Yields id v := by
  unfold resultParts at h
  split at h
  · rw [Option.bind_eq_bind, Option.bind_eq_some_iff] at h
    obtain ⟨out, hout, h⟩ := h
    have hnone : ∀ r, (Part.register r).values = [] := fun _ => rfl
    rw [← Block.mem_values_of_valueOf? hout]
    split at h
    · simpa [hnone] using values_movIntoHalves h hv
    · cases h
      simpa [mov, hnone] using hv
  · cases h
    cases hv

/-- A call covers its node and reads its operands: the callee, if that is a value, and the
arguments, which are pushed from the last to the first. -/
theorem fixed_call (h : (call b id n).run = .ok (some tiles)) :
    ∀ t ∈ tiles, ∃ reads, Fixed b id n reads t := by
  rw [call] at h
  obtain ⟨⟨target, args, read⟩, hcallee, h⟩ := attempted_bind.1 h
  obtain ⟨pushes, hpushes, h⟩ := attempted_bind.1 h
  obtain ⟨result, hresult, h⟩ := attempted_bind.1 h
  obtain ⟨hinputs, htarget⟩ := callee_eq_some hcallee
  cases h
  intro t ht
  rw [List.mem_singleton.1 ht]
  refine ⟨_, .alone .call (read ++ args) _ (fun x hx => hinputs ▸ hx) (fun _ x hx => hinputs ▸ hx)
    fun v hv => ?_⟩
  -- Taking the arguments off the stack mentions no values.
  have hremoval : ∀ pushed : Nat, Part.valuesOfAll (if pushed = 0 then []
      else [.plain "ADD" [.register .esp, .literal (Int64.ofNat pushed)]]) = [] := by
    intro pushed
    split <;> rfl
  simp only [Part.valuesOfAll_append, Part.valuesOfAll_cons, Part.values_plain,
    Part.valuesOfAll_nil, List.append_nil, hremoval, List.mem_append] at hv
  -- A value is an argument's, the callee's or the result.
  rcases hv with (hv | hv) | hv
  · obtain ⟨x, hx, hyields⟩ := values_pushAll hpushes hv
    exact ⟨x, .inr (List.mem_append_right _ (List.mem_reverse.1 hx)), hyields⟩
  · obtain ⟨x, hx, hyields⟩ := htarget v hv
    exact ⟨x, .inr (List.mem_append_left _ hx), hyields⟩
  · exact ⟨id, .inl rfl, values_resultParts (given_eq_some hresult) hv⟩

/-- A jump covers its node and reads nothing, as its target is a label. -/
theorem fixed_jump (hn : b.node? id = some n) (hop : n.op = .jump) (h : jump id n = some tiles) :
    ∀ t ∈ tiles, ∃ reads, Fixed b id n reads t := by
  unfold jump at h
  split at h
  · cases h
    intro t ht
    rw [List.mem_singleton.1 ht]
    exact ⟨_, .leaf hn (by rw [hop]; rfl) _ fun v hv => absurd hv List.not_mem_nil⟩
  · cases h

/-- A branch covers its node and reads its condition, which is its first operand and, if their
number fits, the only one. -/
theorem fixed_branch (hn : b.node? id = some n) (hop : n.op = .branch)
    (h : (branch b id n).run = .ok (some tiles)) : ∀ t ∈ tiles, ∃ reads, Fixed b id n reads t := by
  unfold branch at h
  split at h
  · rename_i cond yes no hcond _
    obtain ⟨c, hc, h⟩ := attempted_bind.1 h
    cases h
    rw [Node.condition?, hop] at hcond
    intro t ht
    rw [List.mem_singleton.1 ht]
    refine ⟨_, .alone .branch [cond] _ (fun x hx => ?_) (fun hfits x hx => ?_) fun v hv => ?_⟩
    · rw [List.mem_singleton.1 hx]
      exact List.mem_of_mem_head? hcond
    · -- The one operand of a branch is its condition.
      have hone : n.inputs.length = 1 := hfits n 1 hn (by rw [hop]; rfl)
      obtain ⟨y, hy⟩ := List.length_eq_one_iff.1 hone
      rw [hy] at hcond hx
      cases hcond
      exact hx
    · have hlabel : ∀ name, (Part.label name).values = [] := fun _ => rfl
      refine ⟨cond, .inr (List.mem_singleton.2 rfl), ?_⟩
      rw [← Block.mem_values_of_valueOf? (operand_eq_some hc)]
      simpa [hlabel] using hv
  · cases h

/-- What is handed over at a return is the one operand, if there is one; with more of them there is
no lowering. -/
theorem values_handOver {inputs : List NodeId} {parts : List Part}
    (h : (handOver b inputs).run = .ok (some parts)) {v : Nat} (hv : v ∈ Part.valuesOfAll parts) :
    ∃ x ∈ inputs, b.Yields x v := by
  unfold handOver at h
  split at h
  · cases h
    cases hv
  · rename_i x
    obtain ⟨value, hvalue, h⟩ := attempted_bind.1 h
    refine ⟨x, List.mem_singleton.2 rfl, ?_⟩
    rw [← Block.mem_values_of_valueOf? (operand_eq_some hvalue)]
    exact values_returnParts (given_eq_some h) hv
  · cases h

/-- A return covers its node and reads its operands, of which there is one at most. -/
theorem fixed_ret (h : (ret b id n).run = .ok (some tiles)) :
    ∀ t ∈ tiles, ∃ reads, Fixed b id n reads t := by
  rw [ret] at h
  obtain ⟨parts, hparts, h⟩ := attempted_bind.1 h
  cases h
  intro t ht
  rw [List.mem_singleton.1 ht]
  refine ⟨_, .alone .ret n.inputs _ (fun x hx => hx) (fun _ x hx => hx) fun v hv => ?_⟩
  rw [Part.valuesOfAll_append, List.mem_append] at hv
  -- The return instruction itself has no operands.
  rcases hv with hv | hv
  · obtain ⟨x, hx, hyields⟩ := values_handOver hparts hv
    exact ⟨x, .inr hx, hyields⟩
  · cases hv

end Lowering

/-- **Every tile of a fixed lowering is of one of the two kinds.** Each of the ten kinds of nodes
has been looked at on its own; the entry of a block, which has no instructions, is left. -/
theorem Block.fixed_of_lower {b : Block} {id : NodeId} {tiles : List Tile}
    (h : b.lower id = .ok (some tiles)) :
    ∃ n, b.node? id = some n ∧ ∀ t ∈ tiles, ∃ reads, Lowering.Fixed b id n reads t := by
  rw [lower, bind_eq_ok] at h
  obtain ⟨n, hn, h⟩ := h
  rw [node_eq_ok] at hn
  refine ⟨n, hn, ?_⟩
  split at h
  · rename_i hop
    exact Lowering.fixed_arg hn hop (pure_eq_ok.1 h)
  · rename_i hop
    exact Lowering.fixed_constant hn hop (pure_eq_ok.1 h)
  · rename_i hop
    exact Lowering.fixed_slot hn hop (pure_eq_ok.1 h)
  · exact Lowering.fixed_select h
  · exact Lowering.fixed_call h
  · exact Lowering.fixed_call h
  · rename_i hop
    exact Lowering.fixed_jump hn hop (pure_eq_ok.1 h)
  · rename_i hop
    exact Lowering.fixed_branch hn hop h
  · exact Lowering.fixed_ret h
  · rename_i hop
    cases h
    intro t ht
    rw [List.mem_singleton.1 ht]
    exact ⟨_, .leaf hn (by rw [hop]; rfl) _ fun v hv => absurd hv List.not_mem_nil⟩
  · cases h

end TileSelect
