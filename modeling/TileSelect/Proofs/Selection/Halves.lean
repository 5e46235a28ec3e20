import TileSelect.Proofs.Expansion.Occurrences
import TileSelect.Proofs.Match.Widths
import TileSelect.Proofs.Meaning.Calls
import TileSelect.Proofs.Selection.Coverage
import TileSelect.Proofs.Selection.Reads
/-!
64-bit values and their halves.

A 64-bit value lives in two registers, so an instruction has to name its halves. Tiles are made in
two ways. Some sources ask for a width, or take halves wherever a wide value can stand, and a tile
of theirs names no 64-bit value as a whole. Others ignore widths: they were written for words, lack
the width that would say so, and match 64-bit values as well. A tile of theirs names every value
whole.

So which tiles split 64-bit values is decided by their source and the values in them. The sources
that ignore widths are listed in `TileSource.ignoresWidth`; for the bundled patterns that the list
is right is a check of the pattern file. `not_splits_masking` is a tile that the list does not
excuse: a 64-bit conjunction has, beside the pattern that works by halves, one that does not.
-/

set_option autoImplicit false

namespace TileSelect

/-! ## The property -/

/-- Whether an operand is not a 64-bit value or temporary as a whole. -/
def Part.isSplit : Part → Bool
  | .value _ ty half | .temp _ ty half => ty != .i64 || half.isSome
  | _ => true

/-- Every 64-bit value and temporary in the tile is named by its halves. -/
def Tile.Splits (t : Tile) : Prop := ∀ p ∈ t.parts, ∀ a ∈ p.operands, a.isSplit = true

instance (t : Tile) : Decidable t.Splits := inferInstanceAs (Decidable (∀ p ∈ _, ∀ a ∈ _, _))

/-- Whether tiles from this source are made without regard to the widths of their values. -/
def TileSource.ignoresWidth : TileSource → Bool
  | .intrinsic kind => [.slot, .select, .selectCompare, .branch].contains kind
  | .pattern ⟨group, ordinal⟩ =>
    match group with
    | "logic" => ordinal < 4
    | "unary" => ordinal < 2
    | "compare" => true
    | "store" => ordinal == 4
    | "store_rmw" => 2 ≤ ordinal && ordinal ≤ 4
    | _ => false

/-! ## Operands of values -/

/-- The operand is a value of the block, whole and of its own width. -/
def Block.Whole (b : Block) (a : Part) : Prop :=
  ∃ v ty, a = .value v ty none ∧ b.widthOf? v = some ty

namespace Block

variable {b : Block} {id : NodeId} {p : Part}

theorem only_whole_of_valueOf? (h : b.valueOf? id = some p) : p.Only b.Whole := by
  obtain ⟨v, ty, rfl, hty, -⟩ := exists_of_valueOf? h
  exact Part.only_value.2 ⟨v, ty, rfl, hty⟩

/-- The operand for a narrow node is split, being no 64-bit value. -/
theorem only_split_of_valueOf? (hid : b.Narrow id) (h : b.valueOf? id = some p) :
    p.Only (·.isSplit = true) := by
  obtain ⟨v, ty, rfl, -, hty⟩ := exists_of_valueOf? h
  have hne : ty ≠ .i64 := fun heq => hid (heq ▸ hty)
  exact Part.only_value.2 (by simp [Part.isSplit, hne])

end Block

namespace Part

/-- A half is marked as one, or is a number. Halves of values and temporaries keep the mark, and the
half of a number is a number again, without one. -/
theorem slice?_cases {half : Half} {p q : Part} (h : p.slice? half = some q) :
    (∃ v ty, q = .value v ty (some half)) ∨ (∃ k ty, q = .temp k ty (some half))
      ∨ ∃ v ty, q = .imm v ty := by
  revert h
  -- The cases are those of slicing: by the kind of part, and by its width.
  fun_cases slice? half p
  -- A register is marked, a number is cut; nothing else has halves.
  all_goals
    intro h
    first
      | cases h
      | obtain ⟨narrow, -, rfl⟩ := Option.map_eq_some_iff.1 h
        simp

/-- A half of an operand is split, whatever width is imposed on it. -/
theorem only_split_slice? {half : Half} {p q : Part} (h : p.slice? half = some q)
    (ty : Option ValueType) : (Filling.retyped ty q).Only (·.isSplit = true) := by
  rcases slice?_cases h with ⟨v, ty', rfl⟩ | ⟨k, ty', rfl⟩ | ⟨v, ty', rfl⟩
  · cases ty <;> exact only_value.2 (by simp [isSplit])
  · cases ty <;> exact only_temp.2 (by simp [isSplit])
  · cases ty <;> exact only_of_isConstant rfl

/-- Imposing a width keeps a part split, unless the width is 64 bits: a temporary or value that is
whole would then count as one. -/
theorem only_split_retyped {ty : Option ValueType} (hty : ty ≠ some .i64) {p : Part}
    (hp : p.Only (·.isSplit = true)) : (Filling.retyped ty p).Only (·.isSplit = true) := by
  cases ty with
  | none => exact hp
  | some t =>
    have hne : t ≠ .i64 := fun heq => hty (heq ▸ rfl)
    -- The width of a value is replaced, and its half kept: the new width alone decides.
    cases p with
    | value v ty half => exact only_value.2 (by simp [isSplit, hne])
    | temp k ty half => exact only_temp.2 (by simp [isSplit, hne])
    | imm => exact only_of_isConstant rfl
    | instruction | label | memory | reference | register | symbol => exact hp

end Part

namespace Tile

variable {b : Block} {t : Tile}

/-- The operands in the tile are as its source says: whole if it ignores widths, and split if it
does not. -/
def Follows (b : Block) (t : Tile) : Prop :=
  ∀ p ∈ t.parts, p.Only fun a =>
    if t.source.ignoresWidth = true then b.Whole a else a.isSplit = true

/-- A tile that ignores widths follows the list if its operands are whole values. -/
theorem follows_of_whole (hsource : t.source.ignoresWidth = true)
    (h : ∀ p ∈ t.parts, p.Only b.Whole) : t.Follows b := by
  simpa only [Follows, hsource, if_true] using h

/-- A tile that heeds widths follows the list if its operands are split. -/
theorem follows_of_split (hsource : ¬ t.source.ignoresWidth = true)
    (h : ∀ p ∈ t.parts, p.Only (·.isSplit = true)) : t.Follows b := by
  simpa only [Follows, if_neg hsource] using h

/-- Whole values are split if none of them is 64 bits wide, and only then. A value that stands
without a mark is split if it is narrow, so it comes down to the widths. -/
theorem splits_iff_of_whole (h : ∀ p ∈ t.parts, p.Only b.Whole) :
    t.Splits ↔ ∀ v ∈ Part.valuesOfAll t.parts, b.widthOf? v ≠ some .i64 := by
  rw [Part.valuesOfAll_eq_operands]
  -- Left to right, a wide value would stand there whole. Right to left, what stands there is a
  -- whole value, and narrow.
  constructor
  · intro hsplits v hv hwide
    obtain ⟨a, ha, hnumber⟩ := List.mem_filterMap.1 hv
    obtain ⟨p, hp, ha⟩ := Part.mem_operandsOfAll.1 ha
    obtain ⟨w, ty, rfl, hty⟩ := h p hp a ha
    cases hnumber
    rw [hwide] at hty
    cases hty
    exact absurd (hsplits p hp _ ha) (by simp [Part.isSplit])
  · intro hnarrow p hp a ha
    obtain ⟨v, ty, rfl, hty⟩ := h p hp a ha
    have hv := hnarrow v (List.mem_filterMap.2 ⟨_, Part.mem_operandsOfAll.2 ⟨p, hp, ha⟩, rfl⟩)
    have hne : ty ≠ .i64 := fun heq => hv (heq ▸ hty)
    simp [Part.isSplit, hne]

/-- A tile that follows the list splits exactly as the list says: tiles from other sources split
everything, and tiles from a source that ignores widths have whole values only. -/
theorem Follows.splits_iff (h : t.Follows b) :
    t.Splits ↔ (t.source.ignoresWidth = true →
      ∀ v ∈ Part.valuesOfAll t.parts, b.widthOf? v ≠ some .i64) := by
  -- The two sides of the list: whole values, of which the widths decide, and split operands.
  unfold Follows at h
  split at h
  · rename_i hsource
    rw [splits_iff_of_whole h]
    exact ⟨fun hnarrow _ => hnarrow, fun hnarrow => hnarrow hsource⟩
  · rename_i hsource
    have hsplits : t.Splits := h
    exact iff_of_true hsplits fun hignores => absurd hignores hsource

end Tile

/-! ## Fixed lowerings -/

namespace Lowering

variable {b : Block} {id : NodeId} {n : Node} {out p q : Part} {P : Part → Prop}
  {tiles : List Tile} {parts : List Part}

/-- A fixed lowering of a kind that ignores widths, with whole operands. -/
theorem follows_tile_of_whole {kind : IntrinsicKind} {covered reads : List NodeId}
    (hkind : (TileSource.intrinsic kind).ignoresWidth = true) (h : ∀ p ∈ parts, p.Only b.Whole) :
    ∀ t ∈ [tile id kind covered reads parts], t.Follows b :=
  List.forall_mem_singleton.2 (Tile.follows_of_whole hkind h)

/-- A fixed lowering of a kind that heeds widths, with split operands. -/
theorem follows_tile_of_split {kind : IntrinsicKind} {covered reads : List NodeId}
    (hkind : (TileSource.intrinsic kind).ignoresWidth = false)
    (h : ∀ p ∈ parts, p.Only (·.isSplit = true)) :
    ∀ t ∈ [tile id kind covered reads parts], t.Follows b :=
  List.forall_mem_singleton.2 (Tile.follows_of_split (Bool.eq_false_iff.1 hkind) h)

theorem only_frame (offset : Int64) : (frame offset).Only P := Part.only_of_operands_eq_nil rfl

theorem only_register (r : Register) : (Part.register r).Only P := Part.only_of_operands_eq_nil rfl

/-- The operands of a move are those of its two sides. -/
theorem only_mov (hp : p.Only P) (hq : q.Only P) : (mov p q).Only P :=
  Part.only_plain.2 (by simp [hp, hq])

/-- Moves into halves name halves, on the side of the result and, if the sources are split, on the
side of the source. -/
theorem split_movIntoHalves {low high : Part} (hlow : low.Only (·.isSplit = true))
    (hhigh : high.Only (·.isSplit = true)) (h : movIntoHalves out low high = some parts) :
    ∀ p ∈ parts, p.Only (·.isSplit = true) := by
  rw [movIntoHalves, Option.bind_eq_bind, Option.bind_eq_some_iff] at h
  obtain ⟨outLow, houtLow, h⟩ := h
  obtain ⟨outHigh, houtHigh, h⟩ := Option.bind_eq_some_iff.1 h
  cases h
  intro p hp
  rcases List.mem_pair.1 hp with rfl | rfl
  · exact only_mov (Part.only_split_slice? houtLow none) hlow
  · exact only_mov (Part.only_split_slice? houtHigh none) hhigh

theorem split_of_not_isWide (hout : b.valueOf? id = some out) (h : ¬ isWide out = true) :
    out.Only (·.isSplit = true) := by
  obtain ⟨v, ty, rfl, -⟩ := Block.valueOf?_eq_some hout
  refine Part.only_value.2 ?_
  cases ty <;> first | rfl | exact absurd rfl h

theorem split_of_isWord (h : p.isWord = true) : p.Only (·.isSplit = true) := by
  intro a ha
  cases p <;> simp_all [Part.operands, Part.isWord, Part.isSplit]

/-- An argument is moved by halves if it is wide. If it is narrow the whole value is named, which is
split as well, so the tile splits either way. -/
theorem follows_arg (h : arg b id n = some tiles) : ∀ t ∈ tiles, t.Follows b := by
  unfold arg at h
  split at h
  · rw [Option.bind_eq_bind, Option.bind_eq_some_iff] at h
    obtain ⟨out, hout, h⟩ := h
    dsimp only at h
    split at h
    · -- A wide argument is moved by halves.
      obtain ⟨parts, hparts, h⟩ := Option.bind_eq_some_iff.1 h
      cases h
      exact follows_tile_of_split rfl (split_movIntoHalves (only_frame _) (only_frame _) hparts)
    · -- A narrow one is moved whole, and is split as it stands.
      rename_i hwide
      cases h
      have hmov : ∀ offset, (mov out (frame offset)).Only (·.isSplit = true) := fun offset =>
        only_mov (split_of_not_isWide hout hwide) (only_frame offset)
      exact follows_tile_of_split rfl (List.forall_mem_singleton.2 (hmov _))
  · cases h

theorem only_constantOperand? (h : constantOperand? b id n = some p) : p.Only P := by
  unfold constantOperand? at h
  split at h <;> cases h <;> exact Part.only_of_isConstant rfl

/-- A constant is moved by halves if it is wide. The sources are numbers and symbols, which name no
value. -/
theorem follows_constant (h : constant b id n = some tiles) : ∀ t ∈ tiles, t.Follows b := by
  rw [constant, Option.bind_eq_bind, Option.bind_eq_some_iff] at h
  obtain ⟨out, hout, h⟩ := h
  obtain ⟨src, hsrc, h⟩ := Option.bind_eq_some_iff.1 h
  dsimp only at h
  split at h
  · -- A wide number is cut as well, and its halves are numbers.
    obtain ⟨low, hlow, h⟩ := Option.bind_eq_some_iff.1 h
    obtain ⟨high, hhigh, h⟩ := Option.bind_eq_some_iff.1 h
    obtain ⟨parts, hparts, h⟩ := Option.bind_eq_some_iff.1 h
    cases h
    exact follows_tile_of_split rfl (split_movIntoHalves (Part.only_split_slice? hlow none)
      (Part.only_split_slice? hhigh none) hparts)
  · rename_i hwide
    cases h
    have hmov : (mov out src).Only (·.isSplit = true) :=
      only_mov (split_of_not_isWide hout hwide) (only_constantOperand? hsrc)
    exact follows_tile_of_split rfl (List.forall_mem_singleton.2 hmov)

/-- The address of a slot is written into a whole value, whatever its width. The source is on the
list for this reason: it splits if the result is narrow. -/
theorem follows_slot (h : slot b id n = some tiles) : ∀ t ∈ tiles, t.Follows b := by
  unfold slot at h
  split at h
  · rw [Option.bind_eq_bind, Option.bind_eq_some_iff] at h
    obtain ⟨out, hout, h⟩ := h
    cases h
    have hlea : ∀ offset, (Part.plain "LEA" [out, frame offset]).Only b.Whole := fun offset =>
      Part.only_plain.2 (by simp [Block.only_whole_of_valueOf? hout, only_frame])
    exact follows_tile_of_whole rfl (List.forall_mem_singleton.2 (hlea _))
  · cases h

/-- The parts of a select name its result, its arms and its test whole. -/
theorem only_selectParts {yes no test : Part} {condition : Condition} (hout : out.Only P)
    (hyes : yes.Only P) (hno : no.Only P) (htest : test.Only P) :
    ∀ p ∈ selectParts out yes no test condition, p.Only P := by
  have hmove : (Part.instruction "CMOV" (some condition) [out, yes]).Only P :=
    Part.only_instruction.2 (by simp [hout, hyes])
  simp [selectParts, only_mov hout hno, htest, hmove]

/-- The select that takes in a comparison compares and moves whole values, whatever their widths.
Its source is on the list. -/
theorem follows_selectCompare {cond yesId noId : NodeId} {yes no : Part}
    (hout : out.Only b.Whole) (hyes : yes.Only b.Whole) (hno : no.Only b.Whole)
    (h : selectCompare b id cond yesId noId out yes no = .ok tiles) :
    ∀ t ∈ tiles, t.Follows b := by
  rw [selectCompare, bind_eq_ok] at h
  obtain ⟨comparison, -, h⟩ := h
  split at h
  · -- The condition is a comparison. If both of its operands have values there is one more tile,
    -- and otherwise none.
    obtain ⟨-, -, h⟩ := bind_eq_ok.1 h
    obtain ⟨-, -, h⟩ := bind_eq_ok.1 h
    split at h
    · rename_i left right hleft hright
      cases h
      have htest : (Part.plain "CMP" [left, right]).Only b.Whole := Part.only_plain.2
        (by simp [Block.only_whole_of_valueOf? hleft, Block.only_whole_of_valueOf? hright])
      exact follows_tile_of_whole rfl (only_selectParts hout hyes hno htest)
    · cases h
      exact fun t ht => absurd ht List.not_mem_nil
  · cases h
    exact fun t ht => absurd ht List.not_mem_nil

/-- A select moves whole values, whatever their widths. The tile that takes in a comparison, if
there is one, does so too. -/
theorem follows_select (h : (select b id n).run = .ok (some tiles)) :
    ∀ t ∈ tiles, t.Follows b := by
  unfold select at h
  split at h
  · obtain ⟨out, hout, h⟩ := attempted_bind.1 h
    obtain ⟨yes, hyes, h⟩ := attempted_bind.1 h
    obtain ⟨no, hno, h⟩ := attempted_bind.1 h
    obtain ⟨condition, hcond, h⟩ := attempted_bind.1 h
    obtain ⟨wider, hwider, h⟩ := attempted_bind.1 h
    -- What is looked up here are the values of nodes, so all of them are whole.
    replace hout := Block.only_whole_of_valueOf? (operand_eq_some hout)
    replace hyes := Block.only_whole_of_valueOf? (operand_eq_some hyes)
    replace hno := Block.only_whole_of_valueOf? (operand_eq_some hno)
    replace hcond := Block.only_whole_of_valueOf? (operand_eq_some hcond)
    cases h
    intro t ht
    rcases List.mem_cons.1 ht with rfl | ht
    · have htest : (Part.plain "TEST" [condition, condition]).Only b.Whole :=
        Part.only_plain.2 (by simp [hcond])
      exact Tile.follows_of_whole rfl (only_selectParts hout hyes hno htest)
    · obtain ⟨found, hfound, hsome⟩ := bind_eq_ok.1 hwider
      cases hsome
      exact follows_selectCompare hout hyes hno hfound t ht
  · cases h

/-- The callee is a symbol, or the value of an address. Addresses are not wide in a well-typed
block, so that value is split although it is named as a whole. -/
theorem split_callee (hb : b.WellTyped) (hn : b.node? id = some n)
    (hop : n.op = .call ∨ n.op = .callVoid) {target : Part} {args read : List NodeId}
    (h : (callee b n).run = .ok (some (target, args, read))) :
    target.Only (·.isSplit = true) := by
  unfold callee at h
  split at h
  · cases h
    exact Part.only_of_isConstant rfl
  · -- Without a symbol the callee is the first operand, and it is used as a pointer.
    split at h
    · cases h
    · rename_i first rest hinputs
      obtain ⟨value, hvalue, h⟩ := attempted_bind.1 h
      cases h
      have hpointer : n.pointer? = some first := by
        rcases hop with hop | hop <;> simp [Node.pointer?, hop, hinputs]
      exact Block.only_split_of_valueOf? (hb.narrow_of_pointer? hn hpointer)
        (operand_eq_some hvalue)

/-- The result of a call is moved by halves if it is wide, and as a whole if it is narrow. The
registers that it comes from name no value. -/
theorem split_resultParts (h : resultParts b id n = some parts) :
    ∀ p ∈ parts, p.Only (·.isSplit = true) := by
  unfold resultParts at h
  split at h
  · rw [Option.bind_eq_bind, Option.bind_eq_some_iff] at h
    obtain ⟨out, hout, h⟩ := h
    split at h
    · exact split_movIntoHalves (only_register _) (only_register _) h
    · rename_i hwide
      cases h
      exact List.forall_mem_singleton.2
        (only_mov (split_of_not_isWide hout hwide) (only_register _))
  · cases h
    exact fun p hp => absurd hp List.not_mem_nil

/-- What is pushed is a word, and so split: a wide argument is pushed as two halves, a narrow one as
a whole. -/
theorem split_pushAll {args : List NodeId} (h : (pushAll b args).run = .ok (some parts)) :
    ∀ p ∈ parts, p.Only (·.isSplit = true) := by
  -- What is pushed is known in closed form: the words of the arguments, in reverse.
  obtain ⟨rfl, htyped⟩ := pushAll_eq h
  intro p hp
  obtain ⟨word, hword, rfl⟩ := List.mem_map.1 hp
  obtain ⟨x, hx, hword⟩ := List.mem_flatMap.1 (List.mem_reverse.1 hword)
  obtain ⟨ty, hty⟩ := htyped x (List.mem_reverse.1 hx)
  have hsplit := split_of_isWord (Block.isWord_of_mem_wordsOf hty hword)
  exact Part.only_plain.2 (List.forall_mem_singleton.2 hsplit)

/-- All parts of a call are split: the pushes, the callee and the move of the result. The removal of
the arguments names no value. -/
theorem follows_call (hb : b.WellTyped) (hn : b.node? id = some n)
    (hop : n.op = .call ∨ n.op = .callVoid) (h : (call b id n).run = .ok (some tiles)) :
    ∀ t ∈ tiles, t.Follows b := by
  rw [call] at h
  obtain ⟨⟨target, args, read⟩, hcallee, h⟩ := attempted_bind.1 h
  obtain ⟨pushed, hpushed, h⟩ := attempted_bind.1 h
  obtain ⟨result, hresult, h⟩ := attempted_bind.1 h
  cases h
  -- Four kinds of parts: the pushes, the call, the removal of the arguments, and the result.
  have hcall : (Part.plain "CALL" [target]).Only (·.isSplit = true) :=
    Part.only_plain.2 (List.forall_mem_singleton.2 (split_callee hb hn hop hcallee))
  have hremoval : ∀ bytes : Nat, ∀ p ∈ (if bytes = 0 then []
      else [Part.plain "ADD" [.register .esp, .literal (Int64.ofNat bytes)]]),
      p.Only (·.isSplit = true) := by
    intro bytes p hp
    split at hp
    · cases hp
    · rw [List.mem_singleton.1 hp]
      exact Part.only_of_operands_eq_nil rfl
  refine follows_tile_of_split rfl fun p hp => ?_
  rcases List.mem_append.1 hp with hp | hp
  · rcases List.mem_append.1 hp with hp | hp
    · rcases List.mem_append.1 hp with hp | hp
      · exact split_pushAll hpushed p hp
      · rw [List.mem_singleton.1 hp]
        exact hcall
    · exact hremoval _ p hp
  · exact split_resultParts (given_eq_some hresult) p hp

/-- A jump has no operands but a label. -/
theorem follows_jump (h : jump id n = some tiles) : ∀ t ∈ tiles, t.Follows b := by
  unfold jump at h
  split at h
  · cases h
    exact follows_tile_of_split rfl
      (List.forall_mem_singleton.2 (Part.only_of_operands_eq_nil rfl))
  · cases h

/-- A branch tests its condition as a whole value. The source is on the list, so this is allowed. -/
theorem follows_branch (h : (branch b id n).run = .ok (some tiles)) :
    ∀ t ∈ tiles, t.Follows b := by
  unfold branch at h
  split at h
  · rename_i cond yes no _ _
    obtain ⟨c, hc, h⟩ := attempted_bind.1 h
    cases h
    have htest : (Part.plain "TEST" [c, c]).Only b.Whole := Part.only_plain.2
      (by simp [Block.only_whole_of_valueOf? (operand_eq_some hc)])
    refine follows_tile_of_whole rfl fun p hp => ?_
    rcases List.mem_cons.1 hp with rfl | hp
    · exact htest
    · rcases List.mem_pair.1 hp with rfl | rfl <;> exact Part.only_of_operands_eq_nil rfl
  · cases h

/-- What is returned is handed over by halves if it is wide. There is at most one such value; with
more operands there is no lowering. -/
theorem split_handOver {inputs : List NodeId} (h : (handOver b inputs).run = .ok (some parts)) :
    ∀ p ∈ parts, p.Only (·.isSplit = true) := by
  unfold handOver at h
  split at h
  · cases h
    exact fun p hp => absurd hp List.not_mem_nil
  · obtain ⟨value, hvalue, h⟩ := attempted_bind.1 h
    replace h := given_eq_some h
    rw [returnParts] at h
    split at h
    · -- A wide value goes to two registers, by halves.
      rw [Option.bind_eq_bind, Option.bind_eq_some_iff] at h
      obtain ⟨low, hlow, h⟩ := h
      obtain ⟨high, hhigh, h⟩ := Option.bind_eq_some_iff.1 h
      cases h
      intro p hp
      rcases List.mem_pair.1 hp with rfl | rfl
      · exact only_mov (only_register _) (Part.only_split_slice? hlow none)
      · exact only_mov (only_register _) (Part.only_split_slice? hhigh none)
    · rename_i hwide
      cases h
      exact List.forall_mem_singleton.2
        (only_mov (only_register _) (split_of_not_isWide (operand_eq_some hvalue) hwide))
  · cases h

/-- All parts of a return are split. It hands over a value by halves if it is wide, and the
instruction that leaves names none. -/
theorem follows_ret (h : (ret b id n).run = .ok (some tiles)) : ∀ t ∈ tiles, t.Follows b := by
  rw [ret] at h
  obtain ⟨parts, hparts, h⟩ := attempted_bind.1 h
  cases h
  refine follows_tile_of_split rfl fun p hp => ?_
  rcases List.mem_append.1 hp with hp | hp
  · exact split_handOver hparts p hp
  · -- The instruction that leaves names no operand.
    rw [List.mem_singleton.1 hp]
    exact Part.only_of_operands_eq_nil rfl

end Lowering

/-- The tiles of a fixed lowering follow the list. Slots, selects and branches are the kinds that
ignore widths; all others move wide values by halves. -/
theorem Block.follows_of_lower {b : Block} {id : NodeId} {tiles : List Tile} (hb : b.WellTyped)
    (h : b.lower id = .ok (some tiles)) : ∀ t ∈ tiles, t.Follows b := by
  rw [lower, bind_eq_ok] at h
  obtain ⟨n, hn, h⟩ := h
  rw [node_eq_ok] at hn
  split at h
  · exact Lowering.follows_arg (pure_eq_ok.1 h)
  · exact Lowering.follows_constant (pure_eq_ok.1 h)
  · exact Lowering.follows_slot (pure_eq_ok.1 h)
  · exact Lowering.follows_select h
  · exact Lowering.follows_call hb hn (.inl ‹_›) h
  · exact Lowering.follows_call hb hn (.inr ‹_›) h
  · exact Lowering.follows_jump (pure_eq_ok.1 h)
  · exact Lowering.follows_branch h
  · exact Lowering.follows_ret h
  · -- What has no instructions names nothing.
    cases h
    exact Lowering.follows_tile_of_split rfl fun p hp => absurd hp List.not_mem_nil
  · cases h

/-! ## Patterns -/

/-- The groups that are included for an operand. -/
def fragments : List String := ["src", "addr", "index4"]

namespace Pattern

/-- Whether the top cannot lie on a 64-bit value: it asks for another width, or yields no value. -/
def hasNarrowRoot (p : Pattern) : Bool :=
  p.root.requiredType?.any (· != .i64) || p.root.rootOp?.any (!·.isProducer)

/-- Whether a name stands for the root or for something else that cannot be 64 bits wide. -/
def isNarrowName (p : Pattern) (name : String) : Bool :=
  if name = "out" then p.hasNarrowRoot else (p.root.narrowNames false).contains name

/-- Whether a path is the name of a captured value. -/
def namesValue (p : Pattern) : List String → Bool
  | [name] => (p.lookup? name matches some (.producer ..))
  | _ => false

/-- Whether a reference cannot become a 64-bit operand as a whole: it takes a half, or what it names
is narrow, or it imposes a narrow width on a value. -/
def splitsReference (p : Pattern) : ReferenceTest := fun path half ty =>
  half.isSome || ty != some .i64
    && match TempName.parse? (Part.pathHead path) with
      | some name => name.width.all (· != .i64) && (name.width.isSome || p.hasNarrowRoot)
      | none => p.isNarrowName (Part.pathHead path) || (ty.isSome && p.namesValue path)

/-- Whether the template names 64-bit values by their halves only. -/
def isSplitting (p : Pattern) : Bool := Part.refersByAll p.splitsReference p.template

/-- Whether all that the pattern names is narrow if its top is. -/
def isNarrowing (p : Pattern) : Bool := p.root.idents.all (p.root.narrowNames true).contains

/-- Whether a pattern treats widths as the list of sources says. -/
def isClassified (p : Pattern) : Bool :=
  p.includesOnly fragments
    && if fragments.contains p.id.group then !p.isStandalone && p.isPlain && p.isNarrowing
      else if (TileSource.pattern p.id).ignoresWidth then p.isPlain
      else p.isSplitting

end Pattern

namespace Filling

variable {b : Block} {k : NodeId} {p q : Part}

/-- What is captured as a value is a value, whole. -/
theorem only_whole_of_valueOf (h : valueOf b k = .ok p) : p.Only b.Whole := by
  unfold valueOf at h
  split at h
  · rename_i q hq
    cases h
    exact Block.only_whole_of_valueOf? hq
  · cases h

/-- What is captured at a narrow node is split. It is the value of the node, and a value that is not
wide is split as it stands. -/
theorem only_split_of_valueOf (hk : b.Narrow k) (h : valueOf b k = .ok p) :
    p.Only (·.isSplit = true) := by
  unfold valueOf at h
  split at h
  · rename_i q hq
    cases h
    exact Block.only_split_of_valueOf? hk hq
  · cases h

end Filling

section Placed

variable {t : Tables} {b : Block} {inc : Inclusion} {id : NodeId} {p : Pattern} {m : Match}
  {i : Instantiation} {e : Shape.Embedding} {chosen : List (String × Instantiation)}

/-- The node that the top of such a pattern lies on is narrow: it has another width than 64 bits, or
none. The pattern asks for another width there, or for an operation that yields nothing. -/
theorem Shape.Placed.narrow_root
    (hkinds : ∀ id n, b.node? id = some n → n.isProducer = n.op.isProducer)
    (he : Shape.Placed b inc p.root id (.start p id) m e) (h : p.hasNarrowRoot = true) :
    b.Narrow id := by
  have hlies := he.lies [] p.root (Shape.at?_nil _)
  rw [he.top] at hlies
  rw [Pattern.hasNarrowRoot, Bool.or_eq_true] at h
  -- What the top lies on is said by the shape of the top. A width that is asked for is a width the
  -- node has.
  generalize p.root = s at h hlies
  cases s with
  | node ident ty op args =>
    obtain ⟨hty, n, hn, rfl, -⟩ := hlies
    rcases h with h | h
    · exact Block.narrow_of_hasType hty h
    · -- A node of an operation that yields nothing has no value, and so no width.
      have hnone : n.value? = none := by
        have hkind := hkinds id n hn
        simp_all [Shape.rootOp?, Node.isProducer]
      rw [Block.Narrow, Block.typeOf?, hn]
      simp [hnone]
  | producer ident ty =>
    rcases h with h | h
    · exact Block.narrow_of_hasType hlies.1 h
    · cases h
  | constant ident ty value =>
    rcases h with h | h
    · exact Block.narrow_of_hasType hlies.1 h
    · cases h
  | inclusion | backreference => rcases h with h | h <;> cases h

/-- A temporary is not 64 bits wide if its name says so, or if it leaves the width to a narrow root.
Without any width it is a word. -/
theorem Filling.tempType_ne {f : Filling} {name : TempName}
    (hwidth : name.width.all (· != .i64) = true)
    (h : name.width.isSome = true ∨ f.block.Narrow f.record.root) : f.tempType name ≠ .i64 := by
  rw [Filling.tempType]
  cases hname : name.width with
  | some w =>
    rw [hname, Option.all_some, bne_iff_ne] at hwidth
    exact hwidth
  | none =>
    rw [hname] at h
    have hroot := h.resolve_left (by simp)
    rw [Option.none_or]
    cases hty : f.block.typeOf? f.record.root with
    | none => decide
    | some ty => exact fun heq => hroot (hty.trans (congrArg some heq))

section Names

variable (hb : b.WellTyped)
  (hkinds : ∀ id n, b.node? id = some n → n.isProducer = n.op.isProducer)
  (hinc : inc.MakesOnly (·.isSplit = true) b.Narrow fragments b)
  (he : Shape.Placed b inc p.root id (.start p id) m e) (hnd : p.root.idents.Nodup)
  (hpattern : m.pattern = p) (hroot : m.root = id)
  (hchosen : Match.Chooses b m.submatches chosen) (hp : p.Explicit t)
  (hgroups : p.includesOnly fragments = true)
include he hnd

include hb hkinds hinc hroot hchosen hgroups in
/-- What a narrow name stands for is split. The name is the one of the root, of a captured value
whose width is asked for, or of an inclusion, which brings only what fragments make. -/
theorem Shape.Placed.split_of_isNarrowName {head : String} {rest : List String} {r : Part}
    (h : p.isNarrowName head = true) (hr : Filling.StandsFor ⟨b, m, chosen⟩ (head :: rest) r) :
    r.Only (·.isSplit = true) := by
  rw [Pattern.isNarrowName] at h
  -- A name stands for the root, for a captured value, or for what is chosen for an inclusion.
  refine Filling.only_of_standsFor (fun hout q => ?_) (fun hout k hk q => ?_)
    (fun hout sub hsub => ?_) hr
  · rw [if_pos hout] at h
    exact Filling.only_split_of_valueOf (hroot ▸ he.narrow_root hkinds h)
  · rw [if_neg hout, List.contains_iff_mem] at h
    obtain ⟨pos, s, hpos, hs, rfl⟩ := he.bindings.1 hk
    exact Filling.only_split_of_valueOf
      (he.narrow hb hnd (by simp) hpos (Shape.ident?_eq_some.2 (.inl hs)) h)
  · rw [if_neg hout, List.contains_iff_mem] at h
    obtain ⟨pos, g, ms, hpos, hfound, m', hm', hinst⟩ := he.position_of_choice hchosen hsub
    exact hinc g (Pattern.mem_groups hgroups hpos) _ ms hfound
      (he.narrow hb hnd (by simp) hpos rfl h) m' hm' sub hinst

include hpattern hp in
/-- The name of a captured value stands for that value, whole. The width of it depends on the node
and is not known from the pattern. -/
theorem Shape.Placed.value_of_namesValue {path : List String} {r : Part}
    (h : p.namesValue path = true) (hr : Filling.StandsFor ⟨b, m, chosen⟩ path r) :
    ∃ v ty, r = .value v ty none := by
  unfold Pattern.namesValue at h
  split at h
  · rename_i name
    split at h
    · rename_i ident ty hlookup
      -- The name is bound at some position, and what it stands for is the value of the node there.
      obtain ⟨pos, hpos, hident⟩ := Pattern.exists_at?_of_lookup? hlookup
      rw [he.standsFor_captured hnd (hp.unreserved hpos hident) hpos hident, Filling.captured,
        hpattern, hlookup] at hr
      unfold Filling.valueOf at hr
      dsimp only at hr
      split at hr
      · rename_i q hq
        cases hr
        obtain ⟨v, ty, rfl, -⟩ := Block.valueOf?_eq_some hq
        exact ⟨v, ty, rfl⟩
      · cases hr
    · cases h
  · cases h

include hb hkinds hinc hpattern hroot hchosen hp hgroups in
/-- What a pattern says of its references is right: a reference that it calls split stands for a
split part. A half is split wherever the reference leads. A whole one needs a narrow name, a narrow
width that it imposes on a value, or a temporary that cannot be wide. -/
theorem Shape.Placed.trusts_splitsReference :
    Filling.Trusts ⟨b, m, chosen⟩ (·.isSplit = true) p.splitsReference := by
  intro path half ty htest r q hmay hhalf
  cases half with
  | some half =>
    -- A half is split, whatever it is a half of.
    rw [Filling.halved] at hhalf
    split at hhalf
    · cases hhalf
      exact Part.only_split_slice? ‹_› ty
    · cases hhalf
  | none =>
    cases hhalf
    simp only [Pattern.splitsReference, Option.isSome_none, Bool.false_or, Bool.and_eq_true,
      bne_iff_ne] at htest
    obtain ⟨hty, htest⟩ := htest
    rcases hmay with hr | ⟨name, k, hname, rfl⟩
    · have htemp : TempName.parse? (Part.pathHead path) = none :=
        Option.not_isSome_iff_eq_none.1 fun h => Filling.not_standsFor_of_temp h hr
      rw [htemp, Bool.or_eq_true, Bool.and_eq_true] at htest
      rcases htest with hnarrow | ⟨himposed, hvalue⟩
      · -- The name is narrow, and imposing a width does not change that.
        cases path with
        | nil => cases hr
        | cons head rest =>
          exact Part.only_split_retyped hty
            (he.split_of_isNarrowName hb hkinds hinc hnd hroot hchosen hgroups hnarrow hr)
      · -- The name may be wide, but the width imposed on its value is not.
        obtain ⟨v, w, rfl⟩ := he.value_of_namesValue hnd hpattern hp hvalue hr
        obtain ⟨t, rfl⟩ := Option.isSome_iff_exists.1 himposed
        have hne : t ≠ .i64 := fun heq => hty (heq ▸ rfl)
        exact Part.only_value.2 (by simp [Part.isSplit, hne])
    · -- The reference is to a temporary, whose width comes from its name or from the root.
      rw [hname, Bool.and_eq_true, Bool.or_eq_true] at htest
      have hne : Filling.tempType ⟨b, m, chosen⟩ name ≠ .i64 := Filling.tempType_ne htest.1
        (htest.2.imp_right fun h => hroot ▸ he.narrow_root hkinds h)
      exact Part.only_split_retyped hty (Part.only_temp.2 (by simp [Part.isSplit, hne]))

end Names

/-- **A pattern that splits makes parts that are split.** Its template takes halves of what may be
wide, and whatever else it names is narrow. -/
theorem Match.Instantiates.only_split (hb : b.WellTyped)
    (hkinds : ∀ id n, b.node? id = some n → n.isProducer = n.op.isProducer)
    (hinc : inc.MakesOnly (·.isSplit = true) b.Narrow fragments b) (hnd : p.root.idents.Nodup)
    (hp : p.Explicit t) (hgroups : p.includesOnly fragments = true)
    (hsplitting : p.isSplitting = true) (hm : p.matchWith b inc id = .ok (some m))
    (hi : m.Instantiates b i) : ∀ q ∈ i.parts, q.Only (·.isSplit = true) := by
  obtain ⟨e, he⟩ := Pattern.matchWith_placed hm hnd
  obtain ⟨rfl, hroot⟩ := Pattern.matchWith_head hm
  cases hi with
  | @intro _ chosen parts allocated after chooses filled =>
    exact (Filling.only_fillAll
      (he.trusts_splitsReference hb hkinds hinc hnd rfl hroot chooses hp hgroups) _ _ _ _ hsplitting
      (fun _ _ h => absurd h List.not_mem_nil) filled).2

end Placed

/-! ## Tables -/

namespace Tables

variable {ps : List Pattern} {b : Block}

/-- Every alternative of a fragment passes the checks for fragments, as all patterns of the group
were checked when it was put on the list of fragments. -/
theorem fragment_of_mem_group (h : ∀ p ∈ ps, p.isClassified = true) {g : String}
    (hg : g ∈ fragments) {q : Pattern} (hq : q ∈ (ofPatterns ps).group g) :
    q.includesOnly fragments = true ∧ q.isPlain = true ∧ q.isNarrowing = true := by
  obtain ⟨hmem, rfl⟩ := mem_group_ofPatterns.1 hq
  have hclass := h q hmem
  rw [Pattern.isClassified, if_pos (List.contains_iff_mem.2 hg), Bool.and_eq_true,
    Bool.and_eq_true, Bool.and_eq_true] at hclass
  exact ⟨hclass.1, hclass.2.1.2, hclass.2.2⟩

/-- Whatever is chosen for a fragment names values whole, in every layer of inclusions. -/
theorem makesOnly_whole (ht : (ofPatterns ps).Distinct) (h : ∀ p ∈ ps, p.isClassified = true)
    (n : Nat) : ((ofPatterns ps).alternatives b n).MakesOnly b.Whole (fun _ => True) fragments b :=
  makesOnly_alternatives ht (fun _ _ _ => Filling.only_whole_of_valueOf)
    (fun _ hg _ hq => ⟨(fragment_of_mem_group h hg hq).1, (fragment_of_mem_group h hg hq).2.1⟩)
    (fun _ _ _ _ _ _ _ _ _ _ _ _ _ _ _ => trivial) n

/-- Whatever is chosen for a fragment at a narrow node names narrow values only. What the fragments
of a group may include is a fragment again, so the argument goes through all layers. -/
theorem makesOnly_split (hb : b.WellTyped) (ht : (ofPatterns ps).Distinct)
    (h : ∀ p ∈ ps, p.isClassified = true) (n : Nat) :
    ((ofPatterns ps).alternatives b n).MakesOnly (·.isSplit = true) b.Narrow fragments b := by
  -- The root of the alternative is narrow, and a fragment passes this on to all that it names.
  refine makesOnly_alternatives ht (fun _ _ => Filling.only_split_of_valueOf)
    (fun _ hg _ hq => ⟨(fragment_of_mem_group h hg hq).1, (fragment_of_mem_group h hg hq).2.1⟩)
    (fun g hg q hq inc id m e he hid pos s name hpos hs => ?_) n
  have hnames := List.all_eq_true.1 (fragment_of_mem_group h hg hq).2.2
  exact he.narrow hb (ht.of_mem_group hq) (fun _ => hid) hpos hs
    (List.contains_iff_mem.1 (hnames name (Shape.mem_idents_of_at? hpos hs)))

/-- **Instantiations of classified patterns follow the list.** A pattern that is not on the list is
split by its template and by what it includes. One that is on it has a template of whole values, so
the widths of the values decide. -/
theorem follows_of_instantiates (hb : b.WellTyped)
    (hkinds : ∀ id n, b.node? id = some n → n.isProducer = n.op.isProducer)
    (ht : (ofPatterns ps).Distinct) (hexplicit : (ofPatterns ps).Explicit)
    (h : ∀ p ∈ ps, p.isClassified = true) {id : NodeId} {op : Operation}
    {stored : Option Operation} {p : Pattern} {m : Match} {i : Instantiation}
    (hp : p ∈ (ofPatterns ps).candidates op stored)
    (hm : (ofPatterns ps).matchAt b id p = .ok (some m)) (hi : m.Instantiates b i) :
    i.toTile.Follows b := by
  obtain ⟨hps, hstandalone, -⟩ := mem_candidates_ofPatterns hp
  have hnd := (ht.of_mem_candidates hp).1
  have hpexplicit : p.Explicit (ofPatterns ps) := by
    obtain ⟨ps', heq, hps'⟩ := hexplicit
    exact hps' p (mem_candidates_ofPatterns (heq ▸ hp)).1
  have hclass := h p hps
  have hsource : i.toTile.source = .pattern p.id := by
    rw [← (Pattern.matchWith_head hm).1, ← hi.record_eq]
    rfl
  rw [Pattern.isClassified, Bool.and_eq_true, ← hsource] at hclass
  obtain ⟨hgroups, hclass⟩ := hclass
  split at hclass
  · -- A fragment makes no tile.
    simp [hstandalone] at hclass
  · split at hclass
    · exact Tile.follows_of_whole ‹_› (hi.madeOf (makesOnly_whole ht h _) hnd
        (fun _ _ _ => Filling.only_whole_of_valueOf) hgroups hclass
        (fun _ _ _ _ _ _ _ _ _ _ _ => trivial) trivial hm).parts
    · exact Tile.follows_of_split ‹_› (hi.only_split hb hkinds (makesOnly_split hb ht h _) hnd
        hpexplicit hgroups hclass hm)

end Tables

/-! ## The bundled patterns -/

namespace Selector

variable {sel : Selector} {b : Block} {id : NodeId} {s s' : Session} {tiles : List Tile}
  {tile : Tile}

/-- Some bits of a 64-bit argument, as another one selects them. -/
def masking : Block := Build.finish ⟨"masks", "f", "entry"⟩ do
  let x ← Build.arg 0 .i64
  let mask ← Build.arg 2 .i64
  Build.op .and .i64 [x, mask]

set_option maxRecDepth 1000000 in
/-- Compiling the bundled file shows that its patterns are classified, and selecting with them shows
a tile for a 64-bit conjunction that works by halves and one that is not split. -/
theorem x86_halves_check :
    ∃ ps, x86Tables = .ok (.ofPatterns ps)
      ∧ (ps.all Pattern.isClassified
        && (hasTile ⟨.ofPatterns ps, .default⟩ masking 2
          (fun t => t.source == .pattern ⟨"logic", 4⟩)
        && hasTile ⟨.ofPatterns ps, .default⟩ masking 2
          (fun t => t.source == .pattern ⟨"logic", 0⟩ && !decide t.Splits))) = true :=
  @Tables.ofSource_of_check x86Source _ _ rfl (by decide +kernel)

/-- **Which tiles split 64-bit values.** With the bundled patterns and all settings, a tile of a
node of a well-typed block names 64-bit values by their halves only, exactly if its source heeds
widths or no value in it is 64 bits wide. -/
theorem selectNode_splits_iff (ht : x86Tables = .ok sel.tables) (hb : b.Built)
    (hwell : b.WellTyped) (h : sel.selectNode b id s = .ok (tiles, s')) (htile : tile ∈ tiles) :
    tile.Splits ↔ (tile.source.ignoresWidth = true →
      ∀ v ∈ Part.valuesOfAll tile.parts, b.widthOf? v ≠ some .i64) := by
  obtain ⟨ps, hps, hcheck⟩ := x86_halves_check
  rw [Bool.and_eq_true, List.all_eq_true] at hcheck
  have hdistinct := Tables.distinct_of_ofSource ht
  have hexplicit := explicit_x86 ht
  have htables : sel.tables = .ofPatterns ps := Except.ok.inj (ht.symm.trans hps)
  rw [htables] at hdistinct hexplicit
  have hfollows : ∀ t ∈ tiles, t.Follows b := by
    -- A lowering is fixed, and so is the list for it; for the patterns the list was checked.
    refine selectNode_keeps (fun ts hlower t ht _ => Block.follows_of_lower hwell hlower t ht)
      (fun n stored _ p hp m i hm hi _ => ?_) h
    rw [htables] at hp hm
    exact Tables.follows_of_instantiates hwell hb.kinds hdistinct hexplicit hcheck.1 hp hm hi
  exact (hfollows tile htile).splits_iff

/-- The conjunction of two 64-bit arguments has a tile that works by halves. Its source heeds
widths, and so the tile splits whatever the values in it. It is the fifth of the patterns for logic
that makes it. -/
theorem selectNode_splits_masking :
    ∃ sel : Selector, x86Tables = .ok sel.tables ∧ masking.Built ∧ masking.WellTyped
      ∧ ∃ tiles s', sel.selectNode masking 2 .start = .ok (tiles, s')
          ∧ ∃ tile ∈ tiles, tile.source = .pattern ⟨"logic", 4⟩ ∧ tile.Splits := by
  obtain ⟨ps, hps, hcheck⟩ := x86_halves_check
  rw [Bool.and_eq_true, Bool.and_eq_true] at hcheck
  obtain ⟨tiles, s', hrun, tile, htile, hsource⟩ := exists_tile_of_hasTile hcheck.2.1
  rw [beq_iff_eq] at hsource
  have hbuilt : masking.Built := .of_ordered (by decide) (by decide)
  have hwell : masking.WellTyped := by decide
  have hheeds : ¬ tile.source.ignoresWidth = true := by
    rw [hsource]
    decide
  exact ⟨_, hps, hbuilt, hwell, tiles, s', hrun, tile, htile, hsource,
    (selectNode_splits_iff hps hbuilt hwell hrun htile).2 fun h => absurd h hheeds⟩

/-- **A 64-bit conjunction has a tile that names whole values.** The pattern for words asks for no
width, so it matches 64-bit arguments too. -/
theorem not_splits_masking :
    ∃ sel : Selector, x86Tables = .ok sel.tables ∧ masking.Built ∧ masking.WellTyped
      ∧ ∃ tiles s', sel.selectNode masking 2 .start = .ok (tiles, s')
          ∧ ∃ tile ∈ tiles, tile.source = .pattern ⟨"logic", 0⟩ ∧ ¬ tile.Splits := by
  obtain ⟨ps, hps, hcheck⟩ := x86_halves_check
  rw [Bool.and_eq_true, Bool.and_eq_true] at hcheck
  obtain ⟨tiles, s', hrun, tile, htile, htest⟩ := exists_tile_of_hasTile hcheck.2.2
  rw [Bool.and_eq_true, beq_iff_eq, Bool.not_eq_true', decide_eq_false_iff_not] at htest
  exact ⟨_, hps, .of_ordered (by decide) (by decide), by decide, tiles, s', hrun, tile, htile,
    htest.1, htest.2⟩

end Selector

end TileSelect
