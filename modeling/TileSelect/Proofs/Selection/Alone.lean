import TileSelect.Proofs.Selection.Pipeline
/-!
Tiles of a single node.

A tile that covers its root alone, and reads operands of the root alone, may always be emitted in a
block without cycles, however the block is chained. At most one node is covered, so at most one is
chained outside. And if a value that the tile reads had to come after the tile, the root would wait
for its operand, the operand for a node that is chained to the root, and that node for the root.

So a node is covered as soon as one such tile is made for it. This module makes them for the
operations with a fixed lowering: each has one, provided that the node carries what its lowering
looks for and that the values involved have known widths.
-/

set_option autoImplicit false

namespace TileSelect

open Relation

/-! ## The verdict -/

/-- The tile covers no node but `id`, reads operands of `id` only, and consists of parts that can
stand alone. -/
structure Tile.Alone (b : Block) (id : NodeId) (t : Tile) : Prop where
  covered : ∀ x ∈ t.covered, x = id
  inputs : ∀ x ∈ t.inputs, b.Operand id x
  standalone : ∀ p ∈ t.parts, p.isStandalone = true

section Search

variable {ε α β : Type}

/-- A search finds nothing if every test fails. -/
theorem findM?_eq_none {p : α → Except ε Bool} {l : List α} (h : ∀ a ∈ l, p a = .ok false) :
    l.findM? p = .ok none := by
  induction l with
  | nil => rfl
  | cons a l ih =>
    rw [List.findM?, h a List.mem_cons_self, ok_bind]
    exact ih fun x hx => h x (List.mem_cons_of_mem a hx)

theorem findSomeM?_eq_none {f : α → Except ε (Option β)} {l : List α}
    (h : ∀ a ∈ l, f a = .ok none) : l.findSomeM? f = .ok none := by
  induction l with
  | nil => rfl
  | cons a l ih =>
    rw [List.findSomeM?_cons, h a List.mem_cons_self, ok_bind]
    exact ih fun x hx => h x (List.mem_cons_of_mem a hx)

end Search

/-- A set whose members are all the same has at most one. Its list has no duplicates, so two places
in it would be two different members. -/
theorem NodeSet.length_le_one {s : NodeSet} {id : NodeId} (h : ∀ x ∈ s, x = id) :
    s.toList = [] ∨ s.toList = [id] := by
  have hlt := s.ascending
  rcases hlist : s.toList with _ | ⟨x, _ | ⟨y, rest⟩⟩
  · exact .inl rfl
  · have hx : x ∈ s.toList := by simp [hlist]
    exact .inr (by rw [h x hx])
  · have hx : x ∈ s.toList := by simp [hlist]
    have hy : y ∈ s.toList := by simp [hlist]
    rw [hlist, h x hx, h y hy] at hlt
    simp at hlt

namespace Block

variable {b : Block} {id : NodeId}

/-- Looking from a node finds nothing chained into a set if there is nothing: all that the search
goes through are nodes that the first one has to wait for. -/
theorem chainedInput_eq_none {s : NodeSet} {x : NodeId} (hr : b.InRange) (hx : x < b.size)
    (h : ∀ y z, ReflTransGen b.Edge x y → b.Chain y z → ¬ z ∈ s) :
    b.chainedInput s x = .ok none := by
  have hnone : ∀ y ∈ x :: (b.dependencies x).toList, b.chainsTo s.contains y = .ok false := by
    intro y hy
    have hpath : ReflTransGen b.Edge x y := by
      rcases List.mem_cons.1 hy with rfl | hy
      · exact .refl
      · have hdep := mem_dependencies.1 (NodeSet.mem_def.2 hy)
        rw [successor_eq_edge hr] at hdep
        exact hdep.to_reflTransGen
    have hsize : y < b.size := by
      rcases List.mem_cons.1 hy with rfl | hy
      · exact hx
      · exact lt_size_of_mem_dependencies hy
    obtain ⟨n, hn⟩ := node?_isSome_iff.2 hsize
    rw [chainsTo, node_eq_ok.2 hn, ok_bind]
    refine congrArg Except.ok (Bool.eq_false_iff.2 fun hany => ?_)
    obtain ⟨z, hchain, hz⟩ := (Option.any_eq_true _ _).1 hany
    exact h y z hpath ⟨n, hn, hchain⟩ (NodeSet.contains_iff.1 hz)
  rw [chainedInput, chainedInto, findM?_eq_none hnone]
  rfl

/-- In a block without cycles nothing that an operand of a node waits for waits for the node: a
chain back to it would close a cycle. -/
theorem chainedInput_of_operand (hb : b.Acyclic) (hr : b.InRange) {covered : NodeSet}
    (hcovered : ∀ x ∈ covered, x = id) {y : NodeId} (hy : b.Operand id y) :
    b.chainedInput covered y = .ok none := by
  refine chainedInput_eq_none hr (hr id y (.inl hy)) fun z c hpath hchain hc => ?_
  have hback : b.Edge z id := .inr (hcovered c hc ▸ hchain)
  exact hb id ((TransGen.head' (.inl hy) hpath).tail hback)

end Block

/-- **A tile of a single node may be emitted.** It has at most one chain to the outside, its
operands do not wait for it, and its parts can stand alone. This is what the validator asks for. -/
theorem Tile.Alone.accepts {b : Block} {id : NodeId} {t : Tile} (h : t.Alone b id)
    (hb : b.Acyclic) (hr : b.InRange) (hid : id < b.size) : b.accepts t = true := by
  have hparts : (t.parts.find? fun p => !p.isStandalone) = none := by
    refine List.find?_eq_none.2 fun p hp => ?_
    simp [h.standalone p hp]
  -- At most one covered node is chained to the outside, for there is at most one covered node.
  have houtside : ∃ outside, t.covered.toList.filterM
      (b.chainsTo fun target => !t.covered.contains target) = .ok outside
        ∧ outside.length ≤ 1 := by
    obtain ⟨v, hv⟩ := @Block.chainsTo_total b (fun target => !t.covered.contains target) id hid
    rcases NodeSet.length_le_one h.covered with hnil | hone
    · exact ⟨[], by rw [hnil]; rfl, by simp⟩
    · refine ⟨if v then [id] else [], ?_, by split <;> simp⟩
      rw [hone, List.filterM, List.filterAuxM, hv]
      cases v <;> rfl
  have hinputs : t.inputs.toList.findSomeM? (b.chainedInput t.covered) = .ok none :=
    findSomeM?_eq_none fun y hy => Block.chainedInput_of_operand hb hr h.covered (h.inputs y hy)
  obtain ⟨outside, houtside, hlength⟩ := houtside
  have hvalid : b.validate t = .ok none := by
    rw [Block.validate, hparts]
    dsimp only
    rw [houtside, ok_bind, if_neg (by omega), hinputs]
  rw [Block.accepts, hvalid]

/-! ## Values of known width -/

/-- The node yields a value of known width. -/
def Block.Typed (b : Block) (id : NodeId) : Prop := ∃ ty, b.typeOf? id = some ty

/-- A node of known width has a value of that width. The width is read off the node through its
value number, so one is not known without the other. -/
theorem Block.valueOf?_of_typeOf? {b : Block} {id : NodeId} {ty : ValueType}
    (h : b.typeOf? id = some ty) : ∃ v, b.valueOf? id = some (.value v ty none) := by
  rw [Block.typeOf?] at h
  split at h
  · rename_i n hn
    obtain ⟨v, hv, hty⟩ := Option.bind_eq_some_iff.1 h
    exact ⟨v, by rw [Block.valueOf?, hn]; simp only [hv, hty, Option.map_some]⟩
  · cases h

/-! ## Fixed lowerings -/

namespace Lowering

variable {b : Block} {id : NodeId} {n : Node}

/-- The first tile of the fixed lowering is a tile of the node alone. -/
def Grants (b : Block) (id : NodeId) (tiles : Option (List Tile)) : Prop :=
  ∃ t rest, tiles = some (t :: rest) ∧ t.Alone b id

/-- A tile that covers its node and reads operands of it is a tile of the node alone, if its parts
can stand alone. -/
theorem alone_tile (hn : b.node? id = some n) (kind : IntrinsicKind) {reads : List NodeId}
    {parts : List Part} (hreads : ∀ x ∈ reads, x ∈ n.inputs)
    (hparts : ∀ p ∈ parts, p.isStandalone = true) :
    (tile id kind [id] reads parts).Alone b id where
  covered x hx := by simpa [tile] using hx
  inputs x hx := by
    have hread : x ∈ reads := (NodeSet.mem_ofList.1 (NodeSet.mem_diff.1 hx).1)
    exact ⟨n, hn, hreads x hread⟩
  standalone := hparts

/-- A value is moved as a whole or, if it is wide, by halves. Either way there are moves, for only a
wide value is asked for its halves, and a wide value has them. -/
theorem exists_movIntoHalves {v : Nat} {ty : ValueType} (low high src : Part) :
    ∃ parts, (if isWide (.value v ty none) = true then movIntoHalves (.value v ty none) low high
        else some [mov (.value v ty none) src]) = some parts
      ∧ ∀ p ∈ parts, p.isStandalone = true := by
  by_cases hwide : isWide (.value v ty none) = true
  · rw [if_pos hwide]
    have hty : ty = .i64 := by cases ty <;> first | rfl | cases hwide
    subst hty
    exact ⟨_, rfl, by simp [mov, Part.plain, Part.isStandalone]⟩
  · rw [if_neg hwide]
    exact ⟨_, rfl, by simp [mov, Part.plain, Part.isStandalone]⟩

/-- An argument is moved from its place in the frame: by one move, or by two if it is wide, with the
high half four bytes behind the low one. -/
theorem grants_arg (hn : b.node? id = some n) (hty : b.Typed id) {index : Nat}
    (himm : n.imm = some (.arg index)) : Grants b id (arg b id n) := by
  obtain ⟨ty, hty⟩ := hty
  obtain ⟨v, hv⟩ := Block.valueOf?_of_typeOf? hty
  let offset := Int64.ofNat (8 + 4 * index)
  obtain ⟨parts, hparts, hstandalone⟩ :=
    @exists_movIntoHalves v ty (frame offset) (frame (offset + 4)) (frame offset)
  -- Wide or not, the moves are the ones of the value.
  have hlowered : arg b id n = some [tile id .arg [id] [] parts] := by
    rw [arg, himm]
    dsimp only
    rw [hv, Option.bind_eq_bind, Option.bind_some]
    split at hparts
    · rw [if_pos ‹_›]
      exact Option.bind_eq_some_iff.2 ⟨parts, hparts, rfl⟩
    · rw [if_neg ‹_›]
      exact Option.bind_eq_some_iff.2 ⟨parts, hparts, rfl⟩
  exact ⟨_, [], hlowered, alone_tile hn .arg (by simp) hstandalone⟩

theorem isWide_eq_false {v : Nat} {ty : ValueType} (h : ty ≠ .i64) :
    isWide (.value v ty none) = false := by
  cases ty <;> first | rfl | exact absurd rfl h

/-- A constant is a number, or a symbol of the width of an address. Numbers are moved at any width.
A symbol has no halves, and an address is not wide, so it needs none. -/
theorem grants_constant (hn : b.node? id = some n) (hty : b.Typed id)
    (himm : (∃ value, n.imm = some (.int value))
      ∨ ∃ name, n.imm = some (.symbol name) ∧ b.typeOf? id = some .i32) :
    Grants b id (constant b id n) := by
  obtain ⟨ty, hty⟩ := hty
  obtain ⟨v, hv⟩ := Block.valueOf?_of_typeOf? hty
  have hmove : ∀ src, constantOperand? b id n = some src → ty ≠ .i64 →
      Grants b id (constant b id n) := by
    intro src hsrc hnarrow
    have hlowered : constant b id n
        = some [tile id .constant [id] [] [mov (.value v ty none) src]] := by
      rw [constant, hv, hsrc]
      simp only [Option.bind_eq_bind, Option.bind_some, isWide_eq_false hnarrow]
      rfl
    exact ⟨_, [], hlowered, alone_tile hn .constant (by simp)
      (by simp [mov, Part.plain, Part.isStandalone])⟩
  rcases himm with ⟨value, himm⟩ | ⟨name, himm, hpointer⟩
  · have hsrc : constantOperand? b id n = some (.imm value (some ty)) := by
      rw [constantOperand?, himm, hty]
    by_cases hwide : ty = .i64
    · -- A wide number goes by halves; a symbol could not.
      subst hwide
      have hlowered : constant b id n = some [tile id .constant [id] []
          [mov (.value v .i32 (some .low)) (.imm (Half.low.ofNumber .i32 value) (some .i32)),
            mov (.value v .i32 (some .high))
              (.imm (Half.high.ofNumber .i32 value) (some .i32))]] := by
        rw [constant, hv, hsrc]
        rfl
      exact ⟨_, [], hlowered, alone_tile hn .constant (by simp)
        (by simp [mov, Part.plain, Part.isStandalone])⟩
    · exact hmove _ hsrc hwide
  · have hsrc : constantOperand? b id n = some (.symbol name) := by rw [constantOperand?, himm]
    rw [hty] at hpointer
    cases hpointer
    exact hmove _ hsrc (by decide)

/-- The address of a slot is computed in one instruction, from the offset of the slot in the frame.
The tile reads no other node. -/
theorem grants_slot (hn : b.node? id = some n) (hty : b.Typed id) {offset : Int}
    (himm : n.imm = some (.slot offset)) : Grants b id (slot b id n) := by
  obtain ⟨ty, hty⟩ := hty
  obtain ⟨v, hv⟩ := Block.valueOf?_of_typeOf? hty
  have hlowered : slot b id n = some [tile id .slot [id] []
      [.plain "LEA" [.value v ty none, frame (Int64.ofInt offset)]]] := by
    rw [slot, himm]
    dsimp only
    rw [hv]
    rfl
  exact ⟨_, [], hlowered, alone_tile hn .slot (by simp) (by simp [Part.plain, Part.isStandalone])⟩

/-- An operand of known width can be written: the node is there and has a value, and the part is
that value as a whole. -/
theorem run_operand {ty : ValueType} (hty : b.typeOf? id = some ty) :
    ∃ v, (operand b id).run = .ok (some (.value v ty none)) := by
  obtain ⟨v, hv⟩ := Block.valueOf?_of_typeOf? hty
  have hfound : ∃ n, b.node? id = some n := by
    rw [Block.typeOf?] at hty
    split at hty
    · exact ⟨_, ‹_›⟩
    · cases hty
  obtain ⟨n, hn⟩ := hfound
  exact ⟨v, by rw [operand, OptionT.run_mk, Block.node_eq_ok.2 hn, ok_bind, hv]; rfl⟩

/-- A select tests its condition and moves one of two values. The tile that takes in a comparison
may come in addition and does not matter here. -/
theorem grants_select (hb : b.OperandsInRange) (hn : b.node? id = some n) (hty : b.Typed id)
    (hoperands : ∀ x ∈ n.inputs, b.Typed x) (hlength : n.inputs.length = 3) :
    ∃ tiles, (select b id n).run = .ok tiles ∧ Grants b id tiles := by
  obtain ⟨cond, yes, no, hinputs⟩ := List.length_eq_three.1 hlength
  -- Every operand has a value.
  have hvalue : ∀ x, x ∈ n.inputs → ∃ p, (operand b x).run = .ok (some p) := by
    intro x hx
    obtain ⟨ty, hty⟩ := hoperands x hx
    obtain ⟨v, hv⟩ := run_operand hty
    exact ⟨_, hv⟩
  obtain ⟨ty, hty⟩ := hty
  obtain ⟨v, hout⟩ := run_operand hty
  obtain ⟨pyes, hyes⟩ := hvalue yes (by simp [hinputs])
  obtain ⟨pno, hno⟩ := hvalue no (by simp [hinputs])
  obtain ⟨pcond, hcond⟩ := hvalue cond (by simp [hinputs])
  obtain ⟨wider, hwider⟩ := @total_selectCompare b id (.value v ty none) hb cond yes no pyes pno
    (hb id cond ⟨n, hn, by simp [hinputs]⟩)
  have hrun : (select b id n).run = .ok (some (tile id .select [id] [cond, yes, no]
      (selectParts (.value v ty none) pyes pno (.plain "TEST" [pcond, pcond]) .notEqual)
        :: wider)) := by
    rw [select, hinputs]
    refine attempted_bind.2 ⟨_, hout, attempted_bind.2 ⟨_, hyes, attempted_bind.2 ⟨_, hno,
      attempted_bind.2 ⟨_, hcond, attempted_bind.2 ⟨wider, ?_, rfl⟩⟩⟩⟩⟩
    rw [hwider]
    rfl
  exact ⟨_, hrun, _, wider, rfl, alone_tile hn .select (by simp [hinputs])
    (by simp [selectParts, mov, Part.plain, Part.isStandalone])⟩

theorem exists_pushParts (v : Nat) (ty : ValueType) :
    ∃ parts, pushParts (.value v ty none) = some parts ∧ ∀ p ∈ parts, p.isStandalone = true := by
  cases ty <;> exact ⟨_, rfl, by simp [Part.plain, Part.isStandalone]⟩

/-- Arguments of known width can be pushed, one after the other. Each is one push or two; the
induction is on the list, as the pushes are made from left to right. -/
theorem run_pushAll {args : List NodeId} (h : ∀ x ∈ args, b.Typed x) :
    ∃ parts, (pushAll b args).run = .ok (some parts) ∧ ∀ p ∈ parts, p.isStandalone = true := by
  induction args with
  | nil => exact ⟨[], rfl, by simp⟩
  | cons x args ih =>
    obtain ⟨ty, hty⟩ := h x List.mem_cons_self
    obtain ⟨v, hv⟩ := run_operand hty
    obtain ⟨pushes, hpushes, hpush⟩ := exists_pushParts v ty
    obtain ⟨rest, hrest, hall⟩ := ih fun y hy => h y (List.mem_cons_of_mem x hy)
    refine ⟨pushes ++ rest, ?_, fun p hp => ?_⟩
    · exact attempted_bind.2 ⟨_, hv, attempted_bind.2 ⟨_, congrArg Except.ok hpushes,
        attempted_bind.2 ⟨_, hrest, rfl⟩⟩⟩
    · rcases List.mem_append.1 hp with hp | hp
      · exact hpush p hp
      · exact hall p hp

/-- A call is direct, with a symbol for its target, or takes its callee as its first operand. In
both cases what is read for the target and the arguments that remain are the operands of the node
together. -/
theorem run_callee (hoperands : ∀ x ∈ n.inputs, b.Typed x)
    (himm : (∃ name, n.imm = some (.symbol name)) ∨ (n.imm = none ∧ n.inputs ≠ [])) :
    ∃ target args read, (callee b n).run = .ok (some (target, args, read))
      ∧ read ++ args = n.inputs := by
  -- A symbol is called as it stands; otherwise the address comes from the first operand, which is
  -- read too.
  rcases himm with ⟨name, himm⟩ | ⟨himm, hne⟩
  · exact ⟨_, _, _, by rw [callee, himm]; rfl, List.nil_append _⟩
  · obtain ⟨first, args, hinputs⟩ := List.exists_cons_of_ne_nil hne
    obtain ⟨ty, hty⟩ := hoperands first (by simp [hinputs])
    obtain ⟨v, hv⟩ := run_operand hty
    refine ⟨.value v ty none, args, [first], ?_, hinputs.symm⟩
    rw [callee, himm, hinputs]
    exact attempted_bind.2 ⟨_, hv, rfl⟩

/-- The result of a call can be moved, if the call has one, from the registers that results are
returned in. A call without a result has nothing to move. -/
theorem exists_resultParts (hty : n.op = .call → b.Typed id) :
    ∃ parts, resultParts b id n = some parts ∧ ∀ p ∈ parts, p.isStandalone = true := by
  by_cases hop : n.op = .call
  · -- The result is a value of known width, and so it can be moved as a whole or by halves.
    obtain ⟨ty, hty⟩ := hty hop
    obtain ⟨v, hv⟩ := Block.valueOf?_of_typeOf? hty
    obtain ⟨parts, hparts, hall⟩ := @exists_movIntoHalves v ty (.register .eax) (.register .edx)
      (.register .eax)
    refine ⟨parts, ?_, hall⟩
    rw [resultParts, hop, hv]
    exact hparts
  · refine ⟨[], ?_, by simp⟩
    rw [resultParts]
    split
    · exact absurd ‹_› hop
    · rfl

/-- A call is made up of pushes, the call itself, the removal of the arguments, and the move of the
result. Each of these can stand alone, and what the tile reads are the operands of the call. -/
theorem grants_call (hn : b.node? id = some n) (hty : n.op = .call → b.Typed id)
    (hoperands : ∀ x ∈ n.inputs, b.Typed x)
    (himm : (∃ name, n.imm = some (.symbol name)) ∨ (n.imm = none ∧ n.inputs ≠ [])) :
    ∃ tiles, (call b id n).run = .ok tiles ∧ Grants b id tiles := by
  obtain ⟨target, args, read, hcallee, hinputs⟩ := run_callee hoperands himm
  have hargs : ∀ x ∈ args.reverse, b.Typed x := by
    intro x hx
    exact hoperands x (hinputs ▸ List.mem_append_right read (List.mem_reverse.1 hx))
  obtain ⟨pushes, hpushes, hpush⟩ := run_pushAll hargs
  obtain ⟨result, hresult, hres⟩ := exists_resultParts hty
  refine ⟨_, attempted_bind.2 ⟨_, hcallee, attempted_bind.2 ⟨_, hpushes,
    attempted_bind.2 ⟨_, congrArg Except.ok hresult, rfl⟩⟩⟩, _, [], rfl,
    alone_tile hn .call (by simp [hinputs]) fun p hp => ?_⟩
  simp only [List.mem_append, List.mem_singleton] at hp
  -- All of these can stand alone.
  rcases hp with ((hp | rfl) | hp) | hp
  · exact hpush p hp
  · rfl
  · split at hp
    · cases hp
    · rw [List.mem_singleton.1 hp]
      rfl
  · exact hres p hp

/-- A jump has a target to jump to. -/
theorem grants_jump (hn : b.node? id = some n) (htargets : n.targets ≠ []) :
    Grants b id (jump id n) := by
  obtain ⟨target, rest, htarget⟩ := List.exists_cons_of_ne_nil htargets
  have hlowered : jump id n = some [tile id .jump [id] [] [.plain "JMP" [.label target]]] := by
    rw [jump, htarget]
  exact ⟨_, [], hlowered, alone_tile hn .jump (by simp) (by simp [Part.plain, Part.isStandalone])⟩

/-- A branch tests its condition and jumps to one of two targets, by a conditional jump and an
unconditional one behind it. Its condition is all that it reads. -/
theorem grants_branch (hn : b.node? id = some n) (hop : n.op = .branch) {cond : NodeId}
    (hinputs : n.inputs = [cond]) (hcond : b.Typed cond) (htargets : n.targets.length = 2) :
    ∃ tiles, (branch b id n).run = .ok tiles ∧ Grants b id tiles := by
  obtain ⟨yes, no, htargets⟩ := List.length_eq_two.1 htargets
  obtain ⟨ty, hty⟩ := hcond
  obtain ⟨v, hv⟩ := run_operand hty
  have hcondition : n.condition? = some cond := by rw [Node.condition?, hop, hinputs]; rfl
  have hrun : (branch b id n).run = .ok (some [tile id .branch [id] [cond]
      [.plain "TEST" [.value v ty none, .value v ty none],
        .instruction "J" (some .notEqual) [.label yes], .plain "JMP" [.label no]]]) := by
    rw [branch, hcondition, htargets]
    exact attempted_bind.2 ⟨_, hv, rfl⟩
  exact ⟨_, hrun, _, [], rfl, alone_tile hn .branch (by simp [hinputs])
    (by simp [Part.plain, Part.isStandalone])⟩

theorem exists_returnParts (v : Nat) (ty : ValueType) :
    ∃ parts, returnParts (.value v ty none) = some parts
      ∧ ∀ p ∈ parts, p.isStandalone = true := by
  cases ty <;> exact ⟨_, rfl, by simp [mov, Part.plain, Part.isStandalone]⟩

/-- A return hands over its operand in the registers for results, if it has one, and leaves. It
reads all its operands, of which there is at most one. -/
theorem grants_ret (hn : b.node? id = some n) (hoperands : ∀ x ∈ n.inputs, b.Typed x)
    (hlength : n.inputs.length ≤ 1) :
    ∃ tiles, (ret b id n).run = .ok tiles ∧ Grants b id tiles := by
  have hparts : ∃ parts, (handOver b n.inputs).run = .ok (some parts)
      ∧ ∀ p ∈ parts, p.isStandalone = true := by
    -- None or one: there are no more.
    rcases hinputs : n.inputs with _ | ⟨x, _ | ⟨y, rest⟩⟩
    · exact ⟨[], rfl, by simp⟩
    · obtain ⟨ty, hty⟩ := hoperands x (by simp [hinputs])
      obtain ⟨v, hv⟩ := run_operand hty
      obtain ⟨parts, hparts, hall⟩ := exists_returnParts v ty
      exact ⟨parts, attempted_bind.2 ⟨_, hv, congrArg Except.ok hparts⟩, hall⟩
    · simp [hinputs] at hlength
  obtain ⟨parts, hparts, hall⟩ := hparts
  refine ⟨_, attempted_bind.2 ⟨_, hparts, rfl⟩, _, [], rfl,
    alone_tile hn .ret (by simp) fun p hp => ?_⟩
  rcases List.mem_append.1 hp with hp | hp
  · exact hall p hp
  · rw [List.mem_singleton.1 hp]
    rfl

/-- The entry of a block has a tile without instructions. -/
theorem grants_entry (hn : b.node? id = some n) :
    Grants b id (some [tile id .entry [id] [] []]) :=
  ⟨_, [], rfl, alone_tile hn .entry (by simp) (by simp)⟩

end Lowering

end TileSelect
