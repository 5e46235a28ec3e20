import TileSelect.Block.Build
import TileSelect.Proofs.Expansion.Operands
import TileSelect.Proofs.Selection.Offers
/-!
Operands of the tiles that are offered.

Fixed lowerings write their operands out: values, halves, numbers, registers, labels and words of
the frame. Tiles of patterns take operands from fragments, and a fragment that is one instruction
is taken like any other (`selectNode_isFlat_iff`). A fragment of several parts is refused, so what
is missing is a look at the part that is left. `not_isFlat_decrement` is a tile that no assembler
reads: the complement of a negation, with the negation as its operand.
-/

set_option autoImplicit false

namespace TileSelect

/-- No operand of an instruction in the tile, at any depth, is an instruction. -/
def Tile.IsFlat (t : Tile) : Prop := ∀ p ∈ t.parts, p.IsFlat

instance (t : Tile) : Decidable t.IsFlat := inferInstanceAs (Decidable (∀ p ∈ t.parts, _))

/-! ## Fixed lowerings -/

namespace Lowering

variable {b : Block} {id : NodeId} {n : Node} {out p q : Part} {half : Half} {tiles : List Tile}
  {parts : List Part} {mnemonic : String} {condition : Option Condition} {os : List Part}

/-- What a fixed lowering writes as an operand. -/
inductive IsOperand : Part → Prop
  | value (v : Nat) (ty : ValueType) (half : Option Half) : IsOperand (.value v ty half)
  | number (v : Int64) (ty : Option ValueType) : IsOperand (.imm v ty)
  | symbol (name : String) : IsOperand (.symbol name)
  | register (r : Register) : IsOperand (.register r)
  | label (name : String) : IsOperand (.label name)
  | frame (offset : Int64) : IsOperand (frame offset)

/-- The part is an instruction with such operands. -/
def IsLowered (p : Part) : Prop :=
  ∃ mnemonic condition os, p = .instruction mnemonic condition os ∧ ∀ o ∈ os, IsOperand o

theorem isOperand_of_valueOf? (h : b.valueOf? id = some p) : IsOperand p := by
  obtain ⟨v, ty, rfl, -⟩ := Block.valueOf?_eq_some h
  exact .value v ty none

/-- The half of an operand is an operand, where there is one: whole values and numbers of known
width have halves, and nothing else does. -/
theorem IsOperand.slice? (hp : IsOperand p) (h : p.slice? half = some q) : IsOperand q := by
  -- Only a value that is not a half yet and a number with a width can be cut.
  cases hp with
  | value v ty taken =>
    cases taken with
    | some taken => cases h
    | none =>
      obtain ⟨narrow, -, rfl⟩ := Option.map_eq_some_iff.1 h
      exact .value v narrow (some half)
  | number v ty =>
    cases ty with
    | none => cases h
    | some ty =>
      obtain ⟨narrow, -, rfl⟩ := Option.map_eq_some_iff.1 h
      exact .number _ _
  | symbol | register | label | frame => cases h

/-- An instruction of operands is part of a fixed lowering. -/
theorem isLowered_instruction (h : ∀ o ∈ os, IsOperand o) :
    IsLowered (.instruction mnemonic condition os) :=
  ⟨mnemonic, condition, os, rfl, h⟩

theorem isLowered_one (hp : IsOperand p) : IsLowered (.instruction mnemonic condition [p]) :=
  isLowered_instruction (List.forall_mem_singleton.2 hp)

theorem isLowered_two (hp : IsOperand p) (hq : IsOperand q) :
    IsLowered (.instruction mnemonic condition [p, q]) :=
  isLowered_instruction (by simp [hp, hq])

/-- Moves into halves are instructions with two operands each: a half of the result, which is an
operand again, and the source for that half. -/
theorem isLowered_movIntoHalves {low high : Part} (hout : IsOperand out) (hlow : IsOperand low)
    (hhigh : IsOperand high) (h : movIntoHalves out low high = some parts) :
    ∀ p ∈ parts, IsLowered p := by
  rw [movIntoHalves, Option.bind_eq_bind, Option.bind_eq_some_iff] at h
  obtain ⟨outLow, houtLow, h⟩ := h
  obtain ⟨outHigh, houtHigh, h⟩ := Option.bind_eq_some_iff.1 h
  cases h
  intro p hp
  rcases List.mem_pair.1 hp with rfl | rfl
  · exact isLowered_two (hout.slice? houtLow) hlow
  · exact isLowered_two (hout.slice? houtHigh) hhigh

/-- Every part of every tile is an instruction of a fixed lowering. -/
def AreLowered (tiles : List Tile) : Prop := ∀ t ∈ tiles, ∀ p ∈ t.parts, IsLowered p

theorem areLowered_nil : AreLowered [] := fun _ ht => absurd ht List.not_mem_nil

theorem areLowered_tile {kind : IntrinsicKind} {covered reads : List NodeId}
    (h : ∀ p ∈ parts, IsLowered p) : AreLowered [tile id kind covered reads parts] :=
  List.forall_mem_singleton.2 h

/-- An argument is moved from a place in the frame. That place is the only kind of memory that a
fixed lowering names. -/
theorem areLowered_arg (h : arg b id n = some tiles) : AreLowered tiles := by
  unfold arg at h
  split at h
  · rw [Option.bind_eq_bind, Option.bind_eq_some_iff] at h
    obtain ⟨out, hout, h⟩ := h
    replace hout := isOperand_of_valueOf? hout
    dsimp only at h
    split at h
    · -- A wide argument is read from two words of the frame.
      obtain ⟨parts, hparts, h⟩ := Option.bind_eq_some_iff.1 h
      cases h
      exact areLowered_tile (isLowered_movIntoHalves hout (.frame _) (.frame _) hparts)
    · cases h
      exact areLowered_tile (List.forall_mem_singleton.2 (isLowered_two hout (.frame _)))
  · cases h

/-- A constant is moved as a number or a symbol, or by the halves of a number. All of these are
operands. -/
theorem areLowered_constant (h : constant b id n = some tiles) : AreLowered tiles := by
  rw [constant, Option.bind_eq_bind, Option.bind_eq_some_iff] at h
  obtain ⟨out, hout, h⟩ := h
  replace hout := isOperand_of_valueOf? hout
  obtain ⟨src, hsrc, h⟩ := Option.bind_eq_some_iff.1 h
  -- Constants are written as numbers and symbols.
  replace hsrc : IsOperand src := by
    unfold constantOperand? at hsrc
    split at hsrc <;> cases hsrc
    · exact .number _ _
    · exact .symbol _
  dsimp only at h
  split at h
  · obtain ⟨low, hlow, h⟩ := Option.bind_eq_some_iff.1 h
    obtain ⟨high, hhigh, h⟩ := Option.bind_eq_some_iff.1 h
    obtain ⟨parts, hparts, h⟩ := Option.bind_eq_some_iff.1 h
    cases h
    exact areLowered_tile
      (isLowered_movIntoHalves hout (hsrc.slice? hlow) (hsrc.slice? hhigh) hparts)
  · cases h
    exact areLowered_tile (List.forall_mem_singleton.2 (isLowered_two hout hsrc))

/-- The address of a slot is that of a place in the frame, which the instruction names without
reading it. -/
theorem areLowered_slot (h : slot b id n = some tiles) : AreLowered tiles := by
  unfold slot at h
  split at h
  · rw [Option.bind_eq_bind, Option.bind_eq_some_iff] at h
    obtain ⟨out, hout, h⟩ := h
    cases h
    exact areLowered_tile
      (List.forall_mem_singleton.2 (isLowered_two (isOperand_of_valueOf? hout) (.frame _)))
  · cases h

/-- A select consists of a move, a test and a conditional move. -/
theorem isLowered_selectParts {yes no test : Part} {condition : Condition} (hout : IsOperand out)
    (hyes : IsOperand yes) (hno : IsOperand no) (htest : IsLowered test) :
    ∀ p ∈ selectParts out yes no test condition, IsLowered p :=
  List.forall_mem_cons.2 ⟨isLowered_two hout hno,
    List.forall_mem_cons.2 ⟨htest, List.forall_mem_singleton.2 (isLowered_two hout hyes)⟩⟩

/-- The select that takes in a comparison has the comparison for its test. Where the operands of the
comparison have no values there is no such tile. -/
theorem areLowered_selectCompare {cond yesId noId : NodeId} {yes no : Part} (hout : IsOperand out)
    (hyes : IsOperand yes) (hno : IsOperand no)
    (h : selectCompare b id cond yesId noId out yes no = .ok tiles) : AreLowered tiles := by
  rw [selectCompare, bind_eq_ok] at h
  obtain ⟨comparison, -, h⟩ := h
  -- The condition is a comparison of two values, or there is no tile.
  split at h
  · obtain ⟨-, -, h⟩ := bind_eq_ok.1 h
    obtain ⟨-, -, h⟩ := bind_eq_ok.1 h
    split at h
    · rename_i hleft hright
      cases h
      exact areLowered_tile (isLowered_selectParts hout hyes hno
        (isLowered_two (isOperand_of_valueOf? hleft) (isOperand_of_valueOf? hright)))
    · cases h
      exact areLowered_nil
  · cases h
    exact areLowered_nil

/-- A select is a test and two moves, and possibly comes with one more tile that has a comparison
for its test. -/
theorem areLowered_select (h : (select b id n).run = .ok (some tiles)) : AreLowered tiles := by
  unfold select at h
  split at h
  · obtain ⟨out, hout, h⟩ := attempted_bind.1 h
    obtain ⟨yes, hyes, h⟩ := attempted_bind.1 h
    obtain ⟨no, hno, h⟩ := attempted_bind.1 h
    obtain ⟨condition, hcond, h⟩ := attempted_bind.1 h
    obtain ⟨wider, hwider, h⟩ := attempted_bind.1 h
    obtain ⟨found, hfound, hsome⟩ := bind_eq_ok.1 hwider
    cases hsome
    cases h
    replace hout := isOperand_of_valueOf? (operand_eq_some hout)
    replace hyes := isOperand_of_valueOf? (operand_eq_some hyes)
    replace hno := isOperand_of_valueOf? (operand_eq_some hno)
    replace hcond := isOperand_of_valueOf? (operand_eq_some hcond)
    -- There may be a second tile, which takes in the comparison that the condition is.
    refine List.forall_mem_cons.2 ⟨?_, areLowered_selectCompare hout hyes hno hfound⟩
    exact isLowered_selectParts hout hyes hno (isLowered_two hcond hcond)
  · cases h

/-- The callee is a symbol or the value of the first operand, and so an operand in either case. -/
theorem isOperand_callee {args read : List NodeId} {target : Part}
    (h : (callee b n).run = .ok (some (target, args, read))) : IsOperand target := by
  unfold callee at h
  split at h
  · cases h
    exact .symbol _
  · split at h
    · cases h
    · obtain ⟨p, hp, h⟩ := attempted_bind.1 h
      cases h
      exact isOperand_of_valueOf? (operand_eq_some hp)

/-- Arguments are pushed one by one, each as a whole or by halves. The induction is on the
arguments. -/
theorem isLowered_pushAll {args : List NodeId} (h : (pushAll b args).run = .ok (some parts)) :
    ∀ p ∈ parts, IsLowered p := by
  induction args generalizing parts with
  | nil =>
    cases h
    exact fun p hp => absurd hp List.not_mem_nil
  | cons x args ih =>
    rw [pushAll, attempted_bind] at h
    obtain ⟨value, hvalue, h⟩ := h
    obtain ⟨pushes, hpushes, h⟩ := attempted_bind.1 h
    obtain ⟨rest, hrest, h⟩ := attempted_bind.1 h
    cases h
    replace hvalue := isOperand_of_valueOf? (operand_eq_some hvalue)
    refine List.forall_mem_append.2 ⟨?_, ih hrest⟩
    replace hpushes := given_eq_some hpushes
    -- A wide argument is pushed as two halves, a narrow one as a whole.
    rw [pushParts] at hpushes
    split at hpushes
    · rw [Option.bind_eq_bind, Option.bind_eq_some_iff] at hpushes
      obtain ⟨high, hhigh, hpushes⟩ := hpushes
      obtain ⟨low, hlow, hpushes⟩ := Option.bind_eq_some_iff.1 hpushes
      cases hpushes
      exact List.forall_mem_cons.2 ⟨isLowered_one (hvalue.slice? hhigh),
        List.forall_mem_singleton.2 (isLowered_one (hvalue.slice? hlow))⟩
    · cases hpushes
      exact List.forall_mem_singleton.2 (isLowered_one hvalue)

/-- The result of a call is moved from registers, as a whole or by halves. Without a result there is
no move. -/
theorem isLowered_resultParts (h : resultParts b id n = some parts) :
    ∀ p ∈ parts, IsLowered p := by
  unfold resultParts at h
  split at h
  · rw [Option.bind_eq_bind, Option.bind_eq_some_iff] at h
    obtain ⟨out, hout, h⟩ := h
    replace hout := isOperand_of_valueOf? hout
    split at h
    · exact isLowered_movIntoHalves hout (.register _) (.register _) h
    · cases h
      exact List.forall_mem_singleton.2 (isLowered_two hout (.register _))
  · cases h
    exact fun p hp => absurd hp List.not_mem_nil

/-- A call consists of pushes, the call, the removal of the arguments, and the move of its result.
None of these has an instruction for an operand. -/
theorem areLowered_call (h : (call b id n).run = .ok (some tiles)) : AreLowered tiles := by
  rw [call] at h
  obtain ⟨⟨target, args, read⟩, hcallee, h⟩ := attempted_bind.1 h
  obtain ⟨pushes, hpushes, h⟩ := attempted_bind.1 h
  obtain ⟨result, hresult, h⟩ := attempted_bind.1 h
  cases h
  -- What was pushed is removed again, if anything was.
  have hremoval : ∀ bytes : Nat, ∀ p ∈ (if bytes = 0 then []
      else [Part.plain "ADD" [.register .esp, .literal (Int64.ofNat bytes)]]), IsLowered p := by
    intro bytes p hp
    split at hp
    · cases hp
    · rw [List.mem_singleton.1 hp]
      exact isLowered_two (.register _) (.number _ _)
  refine areLowered_tile (List.forall_mem_append.2 ⟨List.forall_mem_append.2
    ⟨List.forall_mem_append.2 ⟨isLowered_pushAll hpushes, ?_⟩, hremoval _⟩, ?_⟩)
  · exact List.forall_mem_singleton.2 (isLowered_one (isOperand_callee hcallee))
  · exact isLowered_resultParts (given_eq_some hresult)

/-- A jump names a label. -/
theorem areLowered_jump (h : jump id n = some tiles) : AreLowered tiles := by
  unfold jump at h
  split at h
  · cases h
    exact areLowered_tile (List.forall_mem_singleton.2 (isLowered_one (.label _)))
  · cases h

/-- A branch is a test and two jumps, whose operands are labels. -/
theorem areLowered_branch (h : (branch b id n).run = .ok (some tiles)) : AreLowered tiles := by
  unfold branch at h
  split at h
  · obtain ⟨c, hc, h⟩ := attempted_bind.1 h
    cases h
    replace hc := isOperand_of_valueOf? (operand_eq_some hc)
    exact areLowered_tile (List.forall_mem_cons.2 ⟨isLowered_two hc hc,
      List.forall_mem_cons.2 ⟨isLowered_one (.label _),
        List.forall_mem_singleton.2 (isLowered_one (.label _))⟩⟩)
  · cases h

/-- What is returned is moved to registers, as a whole or by halves. A return without an operand
moves nothing. -/
theorem isLowered_handOver {inputs : List NodeId}
    (h : (handOver b inputs).run = .ok (some parts)) : ∀ p ∈ parts, IsLowered p := by
  unfold handOver at h
  split at h
  · cases h
    exact fun p hp => absurd hp List.not_mem_nil
  · obtain ⟨value, hvalue, h⟩ := attempted_bind.1 h
    replace hvalue := isOperand_of_valueOf? (operand_eq_some hvalue)
    replace h := given_eq_some h
    -- A wide value goes to two registers.
    rw [returnParts] at h
    split at h
    · rw [Option.bind_eq_bind, Option.bind_eq_some_iff] at h
      obtain ⟨low, hlow, h⟩ := h
      obtain ⟨high, hhigh, h⟩ := Option.bind_eq_some_iff.1 h
      cases h
      exact List.forall_mem_cons.2 ⟨isLowered_two (.register _) (hvalue.slice? hlow),
        List.forall_mem_singleton.2 (isLowered_two (.register _) (hvalue.slice? hhigh))⟩
    · cases h
      exact List.forall_mem_singleton.2 (isLowered_two (.register _) hvalue)
  · cases h

/-- A return moves its operand, if it has one, and returns. -/
theorem areLowered_ret (h : (ret b id n).run = .ok (some tiles)) : AreLowered tiles := by
  rw [ret] at h
  obtain ⟨parts, hparts, h⟩ := attempted_bind.1 h
  cases h
  refine areLowered_tile (List.forall_mem_append.2 ⟨isLowered_handOver hparts, ?_⟩)
  exact List.forall_mem_singleton.2
    (isLowered_instruction fun o ho => absurd ho List.not_mem_nil)

end Lowering

/-- **Fixed lowerings write their operands out.** Each of the ten kinds of nodes has been looked at;
none of them has an instruction inside another. -/
theorem Block.areLowered_of_lower {b : Block} {id : NodeId} {tiles : List Tile}
    (h : b.lower id = .ok (some tiles)) : Lowering.AreLowered tiles := by
  rw [lower, bind_eq_ok] at h
  obtain ⟨n, -, h⟩ := h
  -- One case for each kind of fixed lowering, in the order of the definition; the last has none.
  split at h
  · exact Lowering.areLowered_arg (pure_eq_ok.1 h)
  · exact Lowering.areLowered_constant (pure_eq_ok.1 h)
  · exact Lowering.areLowered_slot (pure_eq_ok.1 h)
  · exact Lowering.areLowered_select h
  · exact Lowering.areLowered_call h
  · exact Lowering.areLowered_call h
  · exact Lowering.areLowered_jump (pure_eq_ok.1 h)
  · exact Lowering.areLowered_branch h
  · exact Lowering.areLowered_ret h
  · cases h
    exact Lowering.areLowered_tile fun p hp => absurd hp List.not_mem_nil
  · cases h

namespace Lowering

variable {p : Part}

/-- An operand of a fixed lowering contains no instruction: only a place in the frame has anything
inside, and that is a register and a number. -/
theorem IsOperand.isData (h : IsOperand p) : p.IsData := by
  cases h with
  -- A place in the frame is memory, made of a register and a number.
  | frame offset =>
    intro q hq
    rw [Lowering.frame, Part.mem_pieces_memory] at hq
    rcases hq with rfl | ⟨p, hp, hq⟩ | ⟨p, hp, -⟩ | ⟨p, hp, hq⟩
    · rfl
    · cases hp
      exact Part.isData_of_not_isComposite rfl q hq
    · cases hp
    · cases hp
      exact Part.isData_of_not_isComposite rfl q hq
  | value | number | symbol | register | label => exact Part.isData_of_not_isComposite rfl

theorem IsLowered.isFlat (h : IsLowered p) : p.IsFlat := by
  obtain ⟨mnemonic, condition, os, rfl, hos⟩ := h
  exact Part.isFlat_instruction fun o ho => (hos o ho).isData

end Lowering

/-- **No fixed lowering takes an instruction as operand.** This holds whatever the block is like. -/
theorem Block.isFlat_of_lower {b : Block} {id : NodeId} {tiles : List Tile}
    (h : b.lower id = .ok (some tiles)) : ∀ t ∈ tiles, t.IsFlat := fun t ht p hp =>
  (areLowered_of_lower h t ht p hp).isFlat

/-! ## Selection -/

namespace Selector

variable {sel : Selector} {b : Block} {id : NodeId} {s s' : Session} {tiles : List Tile}
  {tile : Tile} {source : String}

/-- The instantiation is one of a match of a candidate at the node. -/
def Makes (sel : Selector) (b : Block) (id : NodeId) (i : Instantiation) : Prop :=
  ∃ n stored p m, b.node? id = some n ∧ p ∈ sel.tables.candidates n.op stored
    ∧ sel.tables.matchAt b id p = .ok (some m) ∧ m.Instantiates b i

/-- An instantiation is flat exactly if none of the choices that it takes as operands is one
instruction. Templates put no instruction inside another, so this is the only way in. -/
theorem Makes.isFlat_iff (ht : Tables.ofSource source = .ok sel.tables) {i : Instantiation}
    (h : sel.Makes b id i) : (∀ p ∈ i.parts, p.IsFlat)
      ↔ ∀ j p, i.TakesAsOperand j → j.parts = [p] → p.isInstruction = false := by
  obtain ⟨n, stored, p, m, -, hp, hm, hi⟩ := h
  obtain ⟨hmem, hstandalone⟩ := (Tables.wellScoped_of_ofSource ht).of_mem_candidates hp
  rw [← (Pattern.matchWith_head hm).1] at hstandalone
  exact Tables.Finds.isFlat_iff ht ⟨_, id, p, hmem, hm⟩ hi hstandalone

/-- **A tile is flat exactly if no fragment that is one instruction was taken as an operand.** All
that is asked of a fragment that is taken as an operand is that it is a single part. -/
theorem selectNode_isFlat_iff (ht : Tables.ofSource source = .ok sel.tables)
    (h : sel.selectNode b id s = .ok (tiles, s')) (htile : tile ∈ tiles) :
    (tile.IsFlat ↔ ∀ i j p, sel.Makes b id i → i.toTile = tile → i.TakesAsOperand j →
        j.parts = [p] → p.isInstruction = false)
      ∧ ∀ i j, sel.Makes b id i → i.toTile = tile → i.TakesAsOperand j →
          ∃ p, j.parts = [p] := by
  refine ⟨⟨?_, fun htaken => ?_⟩, ?_⟩
  · rintro hflat i j p hmakes rfl htaken hp
    exact (hmakes.isFlat_iff ht).1 hflat j p htaken hp
  · -- A tile is that of a fixed lowering, which is flat, or of an instantiation.
    have hmade : tile.IsFlat ∨ ∃ i, sel.Makes b id i ∧ i.toTile = tile :=
      selectNode_keeps (P := fun t => t.IsFlat ∨ ∃ i, sel.Makes b id i ∧ i.toTile = t)
        (fun ts hlower t ht' _ => .inl (Block.isFlat_of_lower hlower t ht'))
        (fun n stored hn p hp m i hm hi _ => .inr ⟨i, ⟨n, stored, p, m, hn, hp, hm, hi⟩, rfl⟩)
        h tile htile
    rcases hmade with hflat | ⟨i, hmakes, rfl⟩
    · exact hflat
    · exact (hmakes.isFlat_iff ht).2 fun j p => htaken i j p hmakes rfl
  · rintro i j ⟨n, stored, p, m, -, hp, hm, hi⟩ - htaken
    have hmem := ((Tables.wellScoped_of_ofSource ht).of_mem_candidates hp).1
    obtain ⟨-, -, -, -, -, r, -, -, hr, -⟩ :=
      Tables.Finds.operand_of_takesAsOperand ht ⟨_, id, p, hmem, hm⟩ hi htaken
    exact ⟨r, hr⟩

/-! ## Fragments as operands -/

/-- Complements of a value and of something loaded, which are fragments of their own. -/
def complementsOfOperands : String :=
  "operand: (<v> LOCAL) -> [<v>] | (LOAD (<p> LOCAL)) -> [[<p>]];
   complement: (NOT <f> operand) -> [MOV <out>, <f>] [NOT <out>];"

/-- The complement of what the first argument points to. -/
def complementOfLoaded : Block := Build.finish ⟨"complements", "f", "entry"⟩ do
  let place ← Build.arg 0 .i32
  let loaded ← Build.load .i32 place none
  Build.op .not .i32 [loaded]

/-- The tile that has the place in memory as an operand, taken from the fragment for it. -/
def takingLoaded : List Part :=
  [.plain "MOV" [.value 2 .i32 none, .memory (.ofBase (.value 0 .i32 none))],
   .plain "NOT" [.value 2 .i32 none]]

set_option maxRecDepth 10000 in
/-- Selecting for the complement shows the tile with the loaded fragment. -/
theorem exists_tile_complementOfLoaded :
    ∃ sel : Selector, Tables.ofSource complementsOfOperands = .ok sel.tables
      ∧ ∃ tiles s', sel.selectNode complementOfLoaded 2 .start = .ok (tiles, s')
          ∧ ∃ tile ∈ tiles, decide (tile.parts = takingLoaded) = true :=
  @exists_tile_of_check complementOfLoaded 2 complementsOfOperands _ .default _ rfl
    (by decide +kernel)

/-- The tile with the loaded fragment as its operand is flat: what the fragment stands for is a
place in memory and not an instruction. -/
theorem selectNode_isFlat_iff_loaded :
    ∃ sel : Selector, Tables.ofSource complementsOfOperands = .ok sel.tables
      ∧ ∃ tiles s', sel.selectNode complementOfLoaded 2 .start = .ok (tiles, s')
          ∧ ∃ tile ∈ tiles, tile.parts = takingLoaded
            ∧ ∀ i j p, sel.Makes complementOfLoaded 2 i → i.toTile = tile →
                i.TakesAsOperand j → j.parts = [p] → p.isInstruction = false := by
  obtain ⟨sel, hsel, tiles, s', hrun, tile, htile, hparts⟩ := exists_tile_complementOfLoaded
  rw [decide_eq_true_eq] at hparts
  refine ⟨sel, hsel, tiles, s', hrun, tile, htile, hparts, ?_⟩
  refine (selectNode_isFlat_iff hsel hrun htile).1.1 ?_
  rw [Tile.IsFlat, hparts]
  decide

/-- Complements of a value and of a fragment, where the fragment is one instruction. -/
def complements : String :=
  "negation: (NEG (<a> LOCAL)) -> [NEG <a>];
   complement: (NOT (<a> LOCAL)) -> [MOV <out>, <a>] [NOT <out>] | (NOT <f> negation) -> [NOT <f>];"

/-- The complement of the negation of an argument. -/
def decrement : Block := Build.finish ⟨"complements", "f", "entry"⟩ do
  let x ← Build.arg 0 .i32
  let negated ← Build.op .neg .i32 [x]
  Build.op .not .i32 [negated]

/-- A tile of the complement that has the negation as its operand. -/
def takingNegation : List Part := [.plain "NOT" [.plain "NEG" [.value 0 .i32 none]]]

set_option maxRecDepth 10000 in
/-- Selecting for the complement shows the tile with the negation. -/
theorem exists_tile_decrement :
    ∃ sel : Selector, Tables.ofSource complements = .ok sel.tables
      ∧ ∃ tiles s', sel.selectNode decrement 2 .start = .ok (tiles, s')
          ∧ ∃ tile ∈ tiles, decide (tile.parts = takingNegation) = true :=
  @exists_tile_of_check decrement 2 complements _ .default _ rfl (by decide +kernel)

/-- **The negation is accepted as the operand of the complement.** The fragment is one instruction,
and nothing between the template and the validator asks what it is that takes the place of an
operand. -/
theorem not_isFlat_decrement :
    ∃ sel : Selector, Tables.ofSource complements = .ok sel.tables
      ∧ ∃ tiles s', sel.selectNode decrement 2 .start = .ok (tiles, s')
          ∧ ∃ tile ∈ tiles, tile.parts = takingNegation ∧ ¬ tile.IsFlat := by
  obtain ⟨sel, hsel, tiles, s', hrun, tile, htile, hparts⟩ := exists_tile_decrement
  rw [decide_eq_true_eq] at hparts
  refine ⟨sel, hsel, tiles, s', hrun, tile, htile, hparts, ?_⟩
  rw [Tile.IsFlat, hparts]
  decide

end Selector

end TileSelect
