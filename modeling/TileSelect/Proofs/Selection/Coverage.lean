import TileSelect.Proofs.Selection.Signature
import TileSelect.Samples
import TileSelect.Tables.X86
/-!
What the bundled patterns cover.

The bundled patterns, together with the fixed lowerings, have a tile for every node of every block
that a builder can build out of the operations and widths of a 32-bit machine. The language is given
by `Node.isSupported`, operation by operation. A node of the language either has a fixed lowering or
has one of finitely many signatures, and for each of these some bundled pattern serves it: that is a
check of the pattern file, and everything else is about all blocks.
-/

set_option autoImplicit false

namespace TileSelect

/-! ## The language -/

/-- What building a block node by node guarantees: nothing waits for itself, operands and chains are
nodes, a node yields a value if its operation is meant to, every value has a width, operands yield
values, and there are as many of them as the operation takes. -/
structure Block.Built (b : Block) : Prop where
  acyclic : b.Acyclic
  inRange : b.InRange
  kinds : ∀ id n, b.node? id = some n → n.isProducer = n.op.isProducer
  typed : ∀ id n, b.node? id = some n → n.isProducer = true → b.Typed id
  operands : ∀ x y, b.Operand x y → ∃ n, b.node? y = some n ∧ n.isProducer = true
  fits : ∀ id, b.Fits id

/-- The conversions between widths: from the first to the second. -/
def Operation.conversions : Operation → List (ValueType × ValueType)
  | .zext => [(.i1, .i32), (.i8, .i32), (.i16, .i32), (.i8, .i16), (.i32, .i64)]
  | .sext => [(.i8, .i32), (.i16, .i32), (.i8, .i16), (.i32, .i64)]
  | .trunc => [(.i64, .i32), (.i32, .i16), (.i16, .i8), (.i32, .i8)]
  | _ => []

namespace Node

/-- Whether a node converts between two widths. -/
def convertsAs (b : Block) (id : NodeId) (n : Node) (c : ValueType × ValueType) : Bool :=
  b.typeOf? id == some c.2 && n.inputs.all fun x => b.typeOf? x == some c.1

/-- Whether a node belongs to the language of the bundled patterns: what it carries, and the widths
of its result and of its operands. -/
def isSupported (b : Block) (id : NodeId) (n : Node) : Bool :=
  match n.op with
  | .arg => (n.imm matches some (.arg _))
  | .slot => (n.imm matches some (.slot _))
  | .constant =>
    (n.imm matches some (.int _))
      || ((n.imm matches some (.symbol _)) && b.typeOf? id == some .i32)
  | .add | .sub =>
    (b.typeOf? id == some .i32 || b.typeOf? id == some .i64)
      && n.inputs.all fun x => b.typeOf? x == b.typeOf? id
  | .mul | .sdiv | .udiv | .srem | .urem | .shl | .shr | .sar => b.typeOf? id == some .i32
  | .and | .or | .xor | .neg | .not => true
  | .eq | .ne | .slt | .sle | .sgt | .sge | .ult | .ule | .ugt | .uge => true
  | .zext | .sext => n.op.conversions.any (n.convertsAs b id)
  | .trunc => n.op.conversions.any (n.convertsAs b id) || b.typeOf? id == some .i1
  | .load | .store => true
  | .select => n.inputs.length == 3
  -- A call names its callee, or takes it as its first operand.
  | .call | .callVoid => (n.imm matches some (.symbol _)) || (n.imm.isNone && !n.inputs.isEmpty)
  | .jump => !n.targets.isEmpty
  | .branch => n.targets.length == 2
  | .ret => decide (n.inputs.length ≤ 1)
  | .entry => true

end Node

/-- Whether a node is one that a builder adds. -/
def Node.isBuilt (b : Block) (id : NodeId) (n : Node) : Bool :=
  n.isProducer == n.op.isProducer && (!n.isProducer || (b.typeOf? id).isSome)
    && n.inputs.all (fun x => (b.node? x).any Node.isProducer)
    && n.op.arity.all (· == n.inputs.length)

/-- A block in order is built as blocks are, if each of its nodes is one that a builder adds. The
order of the nodes rules out cycles, and the rest is checked node by node. -/
theorem Block.Built.of_ordered {b : Block} (h : b.Ordered)
    (hnodes : ∀ id < b.size, ∀ n, b.node? id = some n → n.isBuilt b id = true) : b.Built := by
  -- What is known of a node, taken apart.
  have hnode : ∀ id n, b.node? id = some n →
      (n.isProducer = n.op.isProducer ∧ (n.isProducer = true → b.Typed id))
        ∧ (∀ x ∈ n.inputs, ∃ m, b.node? x = some m ∧ m.isProducer = true)
        ∧ ∀ k, n.op.arity = some k → n.inputs.length = k := by
    intro id n hn
    have hbuilt := hnodes id (node?_isSome_iff.1 ⟨n, hn⟩) n hn
    simp only [Node.isBuilt, Bool.and_eq_true, beq_iff_eq, Bool.or_eq_true, Bool.not_eq_true',
      Option.isSome_iff_exists, List.all_eq_true, Option.any_eq_true, Option.all_eq_true]
      at hbuilt
    obtain ⟨⟨⟨hkind, htyped⟩, hoperands⟩, harity⟩ := hbuilt
    exact ⟨⟨hkind, fun hproducer => htyped.resolve_left (by simp [hproducer])⟩, hoperands,
      fun k hk => (harity k hk).symm⟩
  exact {
    acyclic := h.acyclic
    inRange := h.inRange
    kinds := fun id n hn => (hnode id n hn).1.1
    typed := fun id n hn => (hnode id n hn).1.2
    operands := fun x y ⟨n, hn, hy⟩ => (hnode x n hn).2.1 y hy
    fits := fun id n k hn => (hnode id n hn).2.2 k }

namespace Block.Built

variable {b : Block} {id : NodeId} {n : Node} (hb : b.Built) (hn : b.node? id = some n)
include hb

theorem typed_of_operand {x y : NodeId} (h : b.Operand x y) : b.Typed y := by
  obtain ⟨n, hn, hproducer⟩ := hb.operands x y h
  exact hb.typed y n hn hproducer

include hn

theorem typed_inputs : ∀ x ∈ n.inputs, b.Typed x :=
  fun _ hx => hb.typed_of_operand ⟨n, hn, hx⟩

/-- A node whose operation yields a value has one of known width. -/
theorem typed_of_op (hop : n.op.isProducer = true) : b.Typed id :=
  hb.typed id n hn ((hb.kinds id n hn).trans hop)

theorem exists_unary (hop : n.op.arity = some 1) : ∃ x, n.inputs = [x] ∧ b.Typed x := by
  obtain ⟨x, hx⟩ := List.length_eq_one_iff.1 (hb.fits id n 1 hn hop)
  exact ⟨x, hx, hb.typed_inputs hn x (by simp [hx])⟩

theorem exists_binary (hop : n.op.arity = some 2) :
    ∃ x y, n.inputs = [x, y] ∧ b.Typed x ∧ b.Typed y := by
  obtain ⟨x, y, hxy⟩ := List.length_eq_two.1 (hb.fits id n 2 hn hop)
  exact ⟨x, y, hxy, hb.typed_inputs hn x (by simp [hxy]), hb.typed_inputs hn y (by simp [hxy])⟩

end Block.Built

/-! ## Nodes with a fixed lowering -/

/-- Whether nodes with the operation are lowered without patterns. -/
def Operation.isFixed : Operation → Bool
  | .arg | .constant | .slot | .select | .call | .callVoid | .jump | .branch | .ret | .entry => true
  | _ => false

/-- **A node of the language with a fixed operation has a fixed lowering.** The rules of the
language ask for what each of the ten lowerings needs, and they are gone through one by one. -/
theorem Block.Built.exists_fixed {b : Block} {id : NodeId} {n : Node} (hb : b.Built)
    (hn : b.node? id = some n) (hsupported : n.isSupported b id = true)
    (hfixed : n.op.isFixed = true) :
    ∃ tiles, b.lower id = .ok tiles ∧ Lowering.Grants b id tiles := by
  have hinputs := hb.typed_inputs hn
  rw [Block.lower, Block.node_eq_ok.2 hn, ok_bind]
  unfold Node.isSupported at hsupported
  cases hop : n.op <;> rw [hop] at hsupported hfixed <;> dsimp only at hsupported ⊢ <;>
    try cases hfixed
  case arg =>
    split at hsupported
    · exact ⟨_, rfl, Lowering.grants_arg hn (hb.typed_of_op hn (by rw [hop]; rfl)) ‹_›⟩
    · cases hsupported
  case constant =>
    refine ⟨_, rfl, Lowering.grants_constant hn (hb.typed_of_op hn (by rw [hop]; rfl)) ?_⟩
    rw [Bool.or_eq_true, Bool.and_eq_true, beq_iff_eq] at hsupported
    rcases hsupported with himm | ⟨himm, hpointer⟩
    · split at himm
      · exact .inl ⟨_, ‹_›⟩
      · cases himm
    · split at himm
      · exact .inr ⟨_, ‹_›, hpointer⟩
      · cases himm
  case slot =>
    split at hsupported
    · exact ⟨_, rfl, Lowering.grants_slot hn (hb.typed_of_op hn (by rw [hop]; rfl)) ‹_›⟩
    · cases hsupported
  case select =>
    exact Lowering.grants_select hb.inRange.operands hn (hb.typed_of_op hn (by rw [hop]; rfl))
      hinputs (beq_iff_eq.1 hsupported)
  -- A call names its callee, or takes it as its first operand.
  case call | callVoid =>
    refine Lowering.grants_call hn (fun hcall => hb.typed_of_op hn (by rw [hcall]; rfl)) hinputs ?_
    rw [Bool.or_eq_true, Bool.and_eq_true, Option.isNone_iff_eq_none] at hsupported
    rcases hsupported with himm | ⟨himm, hne⟩
    · split at himm
      · exact .inl ⟨_, ‹_›⟩
      · cases himm
    · exact .inr ⟨himm, by simpa using hne⟩
  case jump => exact ⟨_, rfl, Lowering.grants_jump hn (by simpa using hsupported)⟩
  case branch =>
    obtain ⟨cond, hcond, hty⟩ := hb.exists_unary hn (by rw [hop]; rfl)
    exact Lowering.grants_branch hn hop hcond hty (beq_iff_eq.1 hsupported)
  case ret => exact Lowering.grants_ret hn hinputs (of_decide_eq_true hsupported)
  case entry => exact ⟨_, rfl, Lowering.grants_entry hn⟩

/-! ## Nodes with a signature -/

/-- The signatures of the language. -/
def Signature.supported : List Signature := List.flatten [
  [Operation.add, .sub].flatMap fun op =>
    [ValueType.i32, .i64].map fun ty => ⟨op, some ty, [some ty, some ty]⟩,
  [Operation.mul, .sdiv, .udiv, .srem, .urem, .shl, .shr, .sar].map fun op =>
    ⟨op, some .i32, [none, none]⟩,
  [Operation.and, .or, .xor, .eq, .ne, .slt, .sle, .sgt, .sge, .ult, .ule, .ugt, .uge].map fun op =>
    ⟨op, none, [none, none]⟩,
  [Operation.neg, .not].map fun op => ⟨op, none, [none]⟩,
  [Operation.zext, .sext, .trunc].flatMap fun op =>
    op.conversions.map fun c => ⟨op, some c.2, [some c.1]⟩,
  [⟨.trunc, some .i1, [none]⟩],
  ValueType.all.map fun ty => ⟨.load, some ty, [none]⟩,
  ValueType.all.map fun ty => ⟨.store, none, [none, some ty]⟩]

theorem Block.Typed.hasWidth {b : Block} {id : NodeId} (h : b.Typed id) : b.HasWidth id none := by
  obtain ⟨ty, hty⟩ := h
  exact ⟨ty, hty, by simp⟩

theorem Block.hasWidth_some {b : Block} {id : NodeId} {ty : ValueType}
    (h : b.typeOf? id = some ty) : b.HasWidth id (some ty) :=
  ⟨ty, h, by simp⟩

section Fits

variable {b : Block} {id x y : NodeId} {n : Node} {op : Operation}
  {out left right : Option ValueType}

/-- A unary node fits a signature with the widths of its operand and its result. There is one
operand, so there is nothing to line up. -/
theorem Signature.Fits.unary (hop : n.op = op) (hout : op.isProducer = true → b.HasWidth id out)
    (hinputs : n.inputs = [x]) (hx : b.HasWidth x left) :
    Signature.Fits ⟨op, out, [left]⟩ b id n where
  op := hop
  out := hout
  ins := by
    rw [hinputs]
    exact .cons hx .nil

/-- A binary node fits a signature with the widths of its operands and its result, the first operand
with the first width and the second with the second. -/
theorem Signature.Fits.binary (hop : n.op = op) (hout : op.isProducer = true → b.HasWidth id out)
    (hinputs : n.inputs = [x, y]) (hx : b.HasWidth x left) (hy : b.HasWidth y right) :
    Signature.Fits ⟨op, out, [left, right]⟩ b id n where
  op := hop
  out := hout
  ins := by
    rw [hinputs]
    exact .cons hx (.cons hy .nil)

end Fits

/-- A conversion of the language has its signature, which is listed with the others of its
operation. The language says from what width to what width an operation converts, and these are the
widths of the operand and of the node. -/
theorem Block.Built.exists_conversion {b : Block} {id : NodeId} {n : Node} {op : Operation}
    (hb : b.Built) (hn : b.node? id = some n) (hop : n.op = op) (harity : op.arity = some 1)
    (hmem : op ∈ [Operation.zext, .sext, .trunc])
    (h : op.conversions.any (n.convertsAs b id) = true) :
    ∃ sig ∈ Signature.supported, sig.Fits b id n := by
  obtain ⟨x, hinputs, -⟩ := hb.exists_unary hn (hop ▸ harity)
  obtain ⟨c, hc, hconverts⟩ := List.any_eq_true.1 h
  simp only [Node.convertsAs, hinputs, List.all_cons, List.all_nil, Bool.and_true,
    Bool.and_eq_true, beq_iff_eq] at hconverts
  refine ⟨⟨op, some c.2, [some c.1]⟩, ?_, Signature.Fits.unary hop
    (fun _ => hasWidth_some hconverts.1) hinputs (hasWidth_some hconverts.2)⟩
  -- The signatures are listed operation by operation, with one for each pair of widths.
  have hlisted : (⟨op, some c.2, [some c.1]⟩ : Signature) ∈ [Operation.zext, .sext, .trunc].flatMap
      (fun op => op.conversions.map fun c => ⟨op, some c.2, [some c.1]⟩) :=
    List.mem_flatMap.2 ⟨op, hmem, List.mem_map.2 ⟨c, hc, rfl⟩⟩
  exact List.mem_flatten.2 ⟨_, by simp, hlisted⟩

/-- **A node of the language that has no fixed lowering has one of the signatures.** The cases are
the operations: for each, the language fixes how many operands there are and what widths go
together, and the list of signatures has every such choice. -/
theorem Block.Built.exists_signature {b : Block} {id : NodeId} {n : Node} (hb : b.Built)
    (hn : b.node? id = some n) (hsupported : n.isSupported b id = true)
    (hfixed : n.op.isFixed = false) :
    ∃ sig ∈ Signature.supported, sig.Fits b id n := by
  have hout : n.op.isProducer = true → b.HasWidth id none := fun hproducer =>
    (hb.typed_of_op hn hproducer).hasWidth
  unfold Node.isSupported at hsupported
  cases hop : n.op <;> rw [hop] at hsupported hfixed hout <;> dsimp only at hsupported <;>
    try cases hfixed
  case add | sub =>
    obtain ⟨x, y, hinputs, -, -⟩ := hb.exists_binary hn (by rw [hop]; rfl)
    rw [Bool.and_eq_true, Bool.or_eq_true, beq_iff_eq, beq_iff_eq, List.all_eq_true] at hsupported
    obtain ⟨hwidth, hsame⟩ := hsupported
    have hx := beq_iff_eq.1 (hsame x (by simp [hinputs]))
    have hy := beq_iff_eq.1 (hsame y (by simp [hinputs]))
    rcases hwidth with hwidth | hwidth <;> rw [hwidth] at hx hy
    · refine ⟨_, ?_, .binary hop (fun _ => hasWidth_some hwidth) hinputs (hasWidth_some hx)
        (hasWidth_some hy)⟩
      decide
    · refine ⟨_, ?_, .binary hop (fun _ => hasWidth_some hwidth) hinputs (hasWidth_some hx)
        (hasWidth_some hy)⟩
      decide
  case mul | sdiv | udiv | srem | urem | shl | shr | sar =>
    obtain ⟨x, y, hinputs, hx, hy⟩ := hb.exists_binary hn (by rw [hop]; rfl)
    refine ⟨_, ?_, .binary hop (fun _ => hasWidth_some (beq_iff_eq.1 hsupported)) hinputs
      hx.hasWidth hy.hasWidth⟩
    decide
  case and | or | xor | eq | ne | slt | sle | sgt | sge | ult | ule | ugt | uge =>
    obtain ⟨x, y, hinputs, hx, hy⟩ := hb.exists_binary hn (by rw [hop]; rfl)
    refine ⟨_, ?_, .binary hop hout hinputs hx.hasWidth hy.hasWidth⟩
    decide
  case neg | not =>
    obtain ⟨x, hinputs, hx⟩ := hb.exists_unary hn (by rw [hop]; rfl)
    refine ⟨_, ?_, .unary hop hout hinputs hx.hasWidth⟩
    decide
  case zext | sext =>
    exact hb.exists_conversion hn hop rfl (by decide) hsupported
  case trunc =>
    rw [Bool.or_eq_true, beq_iff_eq] at hsupported
    rcases hsupported with hconverts | hbit
    · exact hb.exists_conversion hn hop rfl (by decide) hconverts
    · obtain ⟨x, hinputs, hx⟩ := hb.exists_unary hn (by rw [hop]; rfl)
      refine ⟨_, ?_, .unary hop (fun _ => hasWidth_some hbit) hinputs hx.hasWidth⟩
      decide
  case load =>
    obtain ⟨x, hinputs, hx⟩ := hb.exists_unary hn (by rw [hop]; rfl)
    obtain ⟨ty, hty⟩ := hb.typed_of_op hn (by rw [hop]; rfl)
    refine ⟨_, ?_, .unary hop (fun _ => hasWidth_some hty) hinputs hx.hasWidth⟩
    cases ty <;> decide
  case store =>
    obtain ⟨x, y, hinputs, hx, hy⟩ := hb.exists_binary hn (by rw [hop]; rfl)
    -- There is a signature for each width of what is stored; the address may have any.
    obtain ⟨ty, hty⟩ := hy
    refine ⟨_, ?_, .binary hop hout hinputs hx.hasWidth (hasWidth_some hty)⟩
    cases ty <;> decide

/-! ## The bundled patterns -/

namespace Selector

set_option maxRecDepth 1000000 in
/-- Compiling the bundled file shows that some pattern serves each signature of the language, and
that no pattern is nothing but a group. -/
theorem x86_serves :
    ∃ ps, x86Tables = .ok (.ofPatterns ps)
      ∧ (Signature.supported.all (fun sig => ps.any (·.serves (.ofPatterns ps) sig))
        && ps.all fun p => !(p.root matches .inclusion ..)) = true :=
  @Tables.ofSource_of_check x86Source _ _ rfl (by decide +kernel)

/-- What the check says: matching cannot go in circles, since no pattern is an inclusion at the top,
and every signature has a candidate that serves it. -/
theorem x86_tables {t : Tables} (ht : x86Tables = .ok t) :
    t.RootAcyclic ∧ ∀ sig ∈ Signature.supported, ∀ stored,
      ∃ p ∈ t.candidates sig.op stored, p.serves t sig = true := by
  obtain ⟨ps, hps, hcheck⟩ := x86_serves
  rw [ht] at hps
  cases hps
  rw [Bool.and_eq_true, List.all_eq_true, List.all_eq_true] at hcheck
  refine ⟨Tables.rootAcyclic_of_roots fun p hp ident g hroot => ?_, fun sig hsig stored => ?_⟩
  · have hno := hcheck.2 p hp
    rw [hroot] at hno
    cases hno
  · obtain ⟨p, hp, hserves⟩ := List.any_eq_true.1 (hcheck.1 sig hsig)
    refine ⟨p, ?_, hserves⟩
    -- A pattern that serves a signature is kept under the operation of the signature.
    rw [Tables.candidates_ofPatterns]
    refine List.mem_append_left _ (List.mem_filter.2 ⟨hp, ?_⟩)
    simpa using Pattern.rootKey?_of_serves hserves

section Covers

variable {t : Tables} {b : Block} {id : NodeId} {n : Node} (ht : x86Tables = .ok t) (hb : b.Built)
include ht hb

theorem terminates_x86 (hid : id < b.size) : t.Terminates b id := by
  intro candidates _ p _
  exact Tables.matchAt_total (x86_tables ht).1 hb.acyclic.operands hb.inRange.operands hid p

/-- **Every node of the language has a tile that may be emitted.** A node with a fixed lowering is
granted one by the lowering. Any other node has a signature, one of the bundled patterns serves it,
and the pattern makes a tile of the node alone. -/
theorem covers_x86 (hn : b.node? id = some n) (hsupported : n.isSupported b id = true) :
    t.covers b id = true := by
  have hid : id < b.size := Block.node?_isSome_iff.1 ⟨n, hn⟩
  obtain ⟨n', fixed, stored, ms, hn', hlower, -, hms, hevery⟩ :=
    Tables.everyTile_eq hb.inRange.operands hid (terminates_x86 ht hb hid)
  rw [hn, Option.some.injEq] at hn'
  subst hn'
  have halone : ∃ tile ∈ fixed.getD [] ++ (Match.instantiationsOfAll b ms .start).1.map
      Instantiation.toTile, tile.Alone b id := by
    cases hfixed : n.op.isFixed with
    | true =>
      obtain ⟨tiles, htiles, tile, rest, rfl, halone⟩ := hb.exists_fixed hn hsupported hfixed
      rw [hlower] at htiles
      cases htiles
      exact ⟨tile, by simp, halone⟩
    | false =>
      -- The pattern that serves the signature is a candidate, so its match is among those tried.
      obtain ⟨sig, hsig, hfits⟩ := hb.exists_signature hn hsupported hfixed
      obtain ⟨hacyclic, hserved⟩ := x86_tables ht
      obtain ⟨p, hp, hserves⟩ := hserved sig hsig stored
      obtain ⟨m, hm, hinst⟩ := Pattern.exists_alone_of_serves hserves
        (fun g x hx => Tables.included_total hacyclic hb.acyclic.operands hb.inRange.operands
          (hb.inRange.operands id x ⟨n, hn, hx⟩)) hn hfits
      have hmem : m ∈ ms := (mem_of_filterMapM hms m).2 ⟨p, hfits.op ▸ hp, hm⟩
      obtain ⟨i, hi, halone⟩ := Match.exists_mem_instantiationsOfAll hmem hinst .start
      exact ⟨i.toTile, List.mem_append_right _ (List.mem_map_of_mem hi), halone⟩
  obtain ⟨tile, htile, halone⟩ := halone
  rw [Tables.covers, hevery]
  exact List.any_eq_true.2 ⟨tile, htile, halone.accepts hb.acyclic hb.inRange hid⟩

/-- Selection with the bundled patterns finds a tile for every node of the language, whatever the
settings are and however many temporaries have been issued. -/
theorem exists_tile_x86 (hn : b.node? id = some n) (hsupported : n.isSupported b id = true)
    (settings : Settings) (s : Session) :
    ∃ tiles s', selectNode ⟨t, settings⟩ b id s = .ok (tiles, s') ∧ tiles ≠ [] := by
  have hid : id < b.size := Block.node?_isSome_iff.1 ⟨n, hn⟩
  have hterm := terminates_x86 ht hb hid
  obtain ⟨tiles, s₁, s', hevery, hselect⟩ :=
    selectNode_eq_keep (s := s) hb.inRange.operands hid hterm settings
  refine ⟨_, s', hselect, List.isEmpty_eq_false_iff.1 ?_⟩
  rw [isEmpty_keep, Tables.any_accepts_everyTile hb.inRange.operands hid hterm hevery,
    covers_x86 ht hb hn hsupported, Bool.not_true]

end Covers

/-- **The bundled patterns cover their language.** In every block that is built as blocks are, and
whose nodes all belong to the language, selection with the bundled patterns finds tiles for every
node, whatever the settings are. -/
theorem selectBlock_covers_x86 {t : Tables} (ht : x86Tables = .ok t) {b : Block} (hb : b.Built)
    (hlanguage : ∀ id n, b.node? id = some n → n.isSupported b id = true) (settings : Settings) :
    ∃ lists s', selectBlock ⟨t, settings⟩ b = .ok (.ok lists, s') ∧ lists.length = b.size
      ∧ ∀ tiles ∈ lists, tiles ≠ [] := by
  have hids : ∀ id ∈ b.ids, id < b.size := fun id hid => List.mem_range.1 hid
  -- The first node without a tile does not exist.
  have hcovered : b.ids.find? (fun id => !t.covers b id) = none := by
    refine List.find?_eq_none.2 fun id hid => ?_
    obtain ⟨n, hn⟩ := Block.node?_isSome_iff.2 (hids id hid)
    simp [covers_x86 ht hb hn (hlanguage id n hn)]
  obtain ⟨outcome, s', hrun, houtcome⟩ := selectNodes_eq hb.inRange.operands settings b.ids
    (fun id hid => ⟨hids id hid, terminates_x86 ht hb (hids id hid)⟩) .start
  rw [hcovered] at houtcome
  obtain ⟨lists, rfl, hlength, hne⟩ := houtcome
  exact ⟨lists, s', hrun, by rw [hlength, Block.ids, List.length_range], hne⟩

/-- The sample blocks belong to the language, so there are tiles for all of their nodes. Their nodes
are checked one by one; selection is not run. -/
theorem selectBlock_covers_x86_samples :
    ∃ t, x86Tables = .ok t ∧ ∀ b ∈ Samples.blocks, b.Built
      ∧ (∀ id n, b.node? id = some n → n.isSupported b id = true)
      ∧ ∃ lists s', selectBlock ⟨t, .default⟩ b = .ok (.ok lists, s') ∧ lists.length = b.size
          ∧ ∀ tiles ∈ lists, tiles ≠ [] := by
  obtain ⟨ps, hps, -⟩ := x86_serves
  have hbuilt : ∀ b ∈ Samples.blocks, b.Ordered
      ∧ ∀ id < b.size, ∀ n, b.node? id = some n → n.isBuilt b id = true := by decide
  have hlanguage : ∀ b ∈ Samples.blocks, ∀ id < b.size, ∀ n, b.node? id = some n →
      n.isSupported b id = true := by decide
  -- What was checked for the numbers below the size holds for all numbers: behind the end there are
  -- no nodes.
  refine ⟨_, hps, fun b hb => ?_⟩
  have hwhole : ∀ id n, b.node? id = some n → n.isSupported b id = true := fun id n hn =>
    hlanguage b hb id (Block.node?_isSome_iff.1 ⟨n, hn⟩) n hn
  have hb := Block.Built.of_ordered (hbuilt b hb).1 (hbuilt b hb).2
  exact ⟨hb, hwhole, selectBlock_covers_x86 hps hb hwhole .default⟩

end Selector

end TileSelect
