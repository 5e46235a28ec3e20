import TileSelect.Proofs.Selection.Alone
/-!
The calling convention.

Four lowerings have a part in a call. The caller pushes arguments and later removes them, the
function called reads them from its frame, its return leaves the result in registers, and the
caller fetches it from there. None of them looks at another, so what they agree on is a theorem.

The words of an operand stand for its place in memory: a wide value has two, the low one first, and
all else has one. In these terms each of the four is one line. Arguments are pushed as all their
words in reverse; the caller removes as many words as it pushed; argument words are read from the
frame one after the other; and the words of a result pass through `eax` and `edx` in this order.

What the instructions do is said on an `Activation`: a stack, a frame and what operands hold. An
operand that is wide as a whole holds no single word, so a lowering that moved or pushed one would
get no run at all.
-/

set_option autoImplicit false

namespace TileSelect

/-! ## Words of operands -/

/-- The words of an operand in the order in which they stand in memory. -/
def Part.words : Part → List Part
  | .value v .i64 none => [.value v .i32 (some .low), .value v .i32 (some .high)]
  | p => [p]

/-- Whether an operand holds one word: a value that is not wide, a half of one that is, or a
register for results. -/
def Part.isWord : Part → Bool
  | .value _ ty _ => ty != .i64
  | .register .eax | .register .edx => true
  | _ => false

/-- The words of the value that a node yields. -/
def Block.wordsOf (b : Block) (id : NodeId) : List Part :=
  (b.valueOf? id).elim [] Part.words

/-- The arguments of a call: all operands, less the first if that is the callee. -/
def Node.arguments (n : Node) : List NodeId :=
  match n.imm with
  | some (.symbol _) => n.inputs
  | _ => n.inputs.tail

namespace Part

/-- Every word of a value is an operand that holds one word: the value itself, or one of the two
halves of a wide one. -/
theorem isWord_of_mem_words {v : Nat} {ty : ValueType} {p : Part}
    (h : p ∈ (Part.value v ty none).words) : p.isWord = true := by
  cases ty with
  | i64 =>
    rcases List.mem_pair.1 h with rfl | rfl <;> rfl
  | i1 | i8 | i16 | i32 =>
    rw [List.mem_singleton.1 h]
    rfl

/-- The words of a value are different operands, so moving into one leaves the other alone. -/
theorem nodup_words {v : Nat} {ty : ValueType} : (Part.value v ty none).words.Nodup := by
  cases ty <;> simp [words]

/-- How many words a value has depends on its width and not on its number. -/
theorem length_words {v w : Nat} {ty : ValueType} :
    (Part.value v ty none).words.length = (Part.value w ty none).words.length := by
  cases ty <;> rfl

/-- A value has one word or two, which is as many as there are registers for results. -/
theorem length_words_le {v : Nat} {ty : ValueType} : (Part.value v ty none).words.length ≤ 2 := by
  cases ty <;> simp [words]

end Part

/-! ## Pushing and moving words -/

/-- What one activation of a function works on: the stack from its top down, the frame from its
base up, and what every operand of one word holds. -/
structure Activation (W : Type) where
  stack : List W
  frame : List W
  holds : Part → W

namespace Activation

variable {W : Type}

/-- The word at an offset, in bytes, from the base of the frame. -/
def frameWord? (a : Activation W) (offset : Int64) : Option W :=
  if 0 ≤ offset.toInt ∧ 4 ∣ offset.toInt then a.frame[(offset.toInt / 4).toNat]? else none

/-- The word that an instruction gets when it reads an operand. -/
def word? (a : Activation W) : Part → Option W
  | .memory ⟨some (.register .ebp), none, _, some (.imm offset none)⟩ => a.frameWord? offset
  | p => if p.isWord then some (a.holds p) else none

/-- Puts a word into an operand. -/
def hold (a : Activation W) (p : Part) (x : W) : Activation W :=
  { a with holds := Function.update a.holds p x }

@[simp] theorem holds_hold_self (a : Activation W) (p : Part) (x : W) :
    (a.hold p x).holds p = x := by
  simp [hold]

/-- Putting a word into one operand leaves all others as they were. -/
theorem holds_hold_of_ne (a : Activation W) {p q : Part} (h : p ≠ q) (x : W) :
    (a.hold q x).holds p = a.holds p := by
  simp [hold, h]

/-- The activation after an instruction that pushes or moves a word. -/
def step? (a : Activation W) : Part → Option (Activation W)
  | .instruction mnemonic none [p] =>
    if mnemonic = "PUSH" then (a.word? p).map fun x => { a with stack := x :: a.stack } else none
  | .instruction mnemonic none [dst, src] =>
    if mnemonic = "MOV" ∧ dst.isWord then (a.word? src).map (a.hold dst) else none
  | _ => none

/-- The activation after instructions, one after the other. -/
def run? (a : Activation W) (parts : List Part) : Option (Activation W) := parts.foldlM step? a

/-- A function has been called and has set up its frame: the return address and the caller's base
are pushed, and the frame starts there. What operands hold is its own affair. -/
def enter (a : Activation W) (returnAddress base : W) (holds : Part → W) : Activation W :=
  let stack := base :: returnAddress :: a.stack
  ⟨stack, stack, holds⟩

end Activation

/-- The instructions that push operands one after the other. -/
def pushes (operands : List Part) : List Part := operands.map fun p => .plain "PUSH" [p]

namespace Activation

variable {W : Type}

/-! ### What a run does -/

/-- An operand that holds one word is read from there and not from memory. -/
theorem word?_of_isWord {a : Activation W} {p : Part} (h : p.isWord = true) :
    a.word? p = some (a.holds p) := by
  unfold word?
  split
  · cases h
  · rw [if_pos h]

/-- Reading an operand is not disturbed by what is put into another. -/
theorem word?_hold {a : Activation W} {p q : Part} {x : W} (h : p ≠ q) :
    (a.hold q x).word? p = a.word? p := by
  unfold word?
  split
  · rfl
  · rw [holds_hold_of_ne a h]

/-- The word of the frame at four times an index: offsets are counted in bytes and the frame in
words. The index must not be so large that the offset wraps. -/
theorem word?_frame {a : Activation W} {k : Nat} (hk : 4 * k < 2 ^ 63) :
    a.word? (Lowering.frame (Int64.ofNat (4 * k))) = a.frame[k]? := by
  have hoffset : (Int64.ofNat (4 * k)).toInt = 4 * (k : Int) := by
    rw [Int64.toInt_ofNat_of_lt hk, Int.natCast_mul]
    rfl
  have hread : a.word? (Lowering.frame (Int64.ofNat (4 * k)))
      = a.frameWord? (Int64.ofNat (4 * k)) := rfl
  rw [hread, frameWord?, hoffset, if_pos ⟨by omega, Int.dvd_mul_right 4 _⟩,
    Int.mul_ediv_cancel_left _ (by decide), Int.toNat_natCast]

/-- Words that are pushed end up on the stack in reverse, the last one on top. Pushing changes no
operand, so every word is the one that its operand held before the first push. -/
theorem run?_push {operands : List Part} (h : ∀ p ∈ operands, p.isWord = true)
    (a : Activation W) :
    a.run? (pushes operands)
      = some { a with stack := (operands.map a.holds).reverse ++ a.stack } := by
  induction operands generalizing a with
  | nil => rfl
  | cons p operands ih =>
    -- One push, which changes the stack and nothing else.
    have hstep : a.step? (.plain "PUSH" [p]) = some { a with stack := a.holds p :: a.stack } := by
      rw [Part.plain, step?, if_pos rfl, word?_of_isWord (h p List.mem_cons_self)]
      rfl
    rw [pushes, List.map_cons, run?, List.foldlM_cons, hstep]
    refine (ih (fun q hq => h q (List.mem_cons_of_mem p hq)) _).trans ?_
    simp

/-- Moves that do not overlap all take effect: every destination holds what its source held before
the first of them. This needs that no source is an earlier destination, and that destinations are
different. -/
theorem run?_mov {dsts srcs : List Part} {xs : List W} {a : Activation W}
    (hword : ∀ p ∈ dsts, p.isWord = true) (hnodup : dsts.Nodup) (hapart : dsts.Disjoint srcs)
    (hlength : dsts.length ≤ srcs.length)
    (hread : (srcs.take dsts.length).map a.word? = xs.map some) :
    ∃ after, a.run? (List.zipWith Lowering.mov dsts srcs) = some after
      ∧ dsts.map after.holds = xs ∧ ∀ p, p ∉ dsts → after.holds p = a.holds p := by
  induction dsts generalizing srcs xs a with
  | nil =>
    have hxs : xs = [] := List.map_eq_nil_iff.1 hread.symm
    exact ⟨a, rfl, hxs.symm, fun p _ => rfl⟩
  | cons d dsts ih =>
    rcases srcs with _ | ⟨s, srcs⟩
    · cases hlength
    rcases xs with _ | ⟨x, xs⟩
    · cases hread
    rw [List.length_cons, List.take_succ_cons, List.map_cons, List.map_cons, List.cons.injEq]
      at hread
    obtain ⟨hx, hread⟩ := hread
    obtain ⟨hd, hnodup⟩ := List.nodup_cons.1 hnodup
    have hstep : a.step? (Lowering.mov d s) = some (a.hold d x) := by
      rw [Lowering.mov, Part.plain, step?, if_pos ⟨rfl, hword d List.mem_cons_self⟩, hx]
      rfl
    -- The first move changes none of the sources that are still to be read.
    have hlater : (srcs.take dsts.length).map (a.hold d x).word? = xs.map some := by
      rw [← hread]
      refine List.map_congr_left fun p hp => word?_hold ?_
      rintro rfl
      exact hapart List.mem_cons_self (List.mem_cons_of_mem s (List.mem_of_mem_take hp))
    obtain ⟨after, hrun, hholds, hkept⟩ := ih (fun p hp => hword p (List.mem_cons_of_mem d hp))
      hnodup (fun p hp hs => hapart (List.mem_cons_of_mem d hp) (List.mem_cons_of_mem s hs))
      (Nat.le_of_succ_le_succ hlength) hlater
    refine ⟨after, ?_, ?_, fun p hp => ?_⟩
    · rw [List.zipWith_cons_cons, run?, List.foldlM_cons, hstep]
      exact hrun
    · rw [List.map_cons, hholds, hkept d hd, holds_hold_self]
    · rw [List.mem_cons, not_or] at hp
      rw [hkept p hp.2, holds_hold_of_ne a hp.1]

end Activation

/-! ## The four lowerings in terms of words -/

/-- The registers through which the words of a result pass. -/
def resultRegisters : List Part := [.register .eax, .register .edx]

/-- What removes words from the stack; there is no instruction that removes none. -/
def removal (words : Nat) : List Part :=
  if words = 0 then [] else [.plain "ADD" [.register .esp, .literal (Int64.ofNat (4 * words))]]

/-- The word of the frame with a given index among the argument words; two words are below them. -/
def argumentWord (index : Nat) : Part := Lowering.frame (Int64.ofNat (4 * (index + 2)))

namespace Block

variable {b : Block} {id : NodeId} {n : Node} {v : Nat} {ty : ValueType} {p : Part}

theorem wordsOf_of_valueOf? (h : b.valueOf? id = some p) : b.wordsOf id = p.words := by
  rw [wordsOf, h]
  rfl

/-- The operand of a node is its value, of the width of the node, with no half taken. The words of
the operand are determined by this. -/
theorem exists_of_valueOf? (h : b.valueOf? id = some p) :
    ∃ v ty, p = .value v ty none ∧ b.widthOf? v = some ty ∧ b.typeOf? id = some ty := by
  rw [valueOf?] at h
  split at h
  · rename_i n hn
    split at h
    · rename_i v hv
      obtain ⟨ty, hty, rfl⟩ := Option.map_eq_some_iff.1 h
      refine ⟨v, ty, rfl, hty, ?_⟩
      rw [typeOf?, hn]
      simp only [hv, Option.bind_some, hty]
    · cases h
  · cases h

/-- A node with a width has words, those of the value that it yields. -/
theorem exists_wordsOf (h : b.typeOf? id = some ty) :
    ∃ v, b.wordsOf id = (Part.value v ty none).words := by
  obtain ⟨v, hv⟩ := valueOf?_of_typeOf? h
  exact ⟨v, wordsOf_of_valueOf? hv⟩

/-- Every word of a node is an operand that holds one word. -/
theorem isWord_of_mem_wordsOf (hty : b.typeOf? id = some ty) (h : p ∈ b.wordsOf id) :
    p.isWord = true := by
  obtain ⟨v, hv⟩ := exists_wordsOf hty
  exact Part.isWord_of_mem_words (hv ▸ h)

theorem nodup_wordsOf (hty : b.typeOf? id = some ty) : (b.wordsOf id).Nodup := by
  obtain ⟨v, hv⟩ := exists_wordsOf hty
  exact hv ▸ Part.nodup_words

/-- How many words a value has depends on its width only, so both sides of a call count alike. -/
theorem length_wordsOf {b' : Block} {x : NodeId} (h : b.typeOf? id = some ty)
    (h' : b'.typeOf? x = some ty) : (b.wordsOf id).length = (b'.wordsOf x).length := by
  obtain ⟨v, hv⟩ := exists_wordsOf h
  obtain ⟨w, hw⟩ := exists_wordsOf h'
  rw [hv, hw, Part.length_words]

theorem length_wordsOf_le (hty : b.typeOf? id = some ty) : (b.wordsOf id).length ≤ 2 := by
  obtain ⟨v, hv⟩ := exists_wordsOf hty
  exact hv ▸ Part.length_words_le

end Block

namespace Lowering

variable {b : Block} {id : NodeId} {n : Node} {v : Nat} {ty : ValueType}

/-- A value is pushed word by word, the high one first, so that it lies in memory with its low word
first. -/
theorem pushParts_value : pushParts (.value v ty none)
    = some (pushes (Part.value v ty none).words.reverse) := by
  cases ty <;> rfl

/-- A value is returned word by word in the registers for results, the low one in the first. -/
theorem returnParts_value : returnParts (.value v ty none)
    = some (List.zipWith mov (resultRegisters.take (Part.value v ty none).words.length)
        (Part.value v ty none).words) := by
  cases ty <;> rfl

/-- Two words are moved into the halves of a wide value, and the first one into any other. The
second source is then not used, which is how a narrow result is fetched from one register. -/
theorem mov_value {low high : Part} :
    (if isWide (.value v ty none) then movIntoHalves (.value v ty none) low high
      else some [mov (.value v ty none) low])
      = some (List.zipWith mov (Part.value v ty none).words [low, high]) := by
  cases ty <;> rfl

/-- Arguments are pushed word by word, the last word first. So the whole sequence is that of all
words of all arguments, read backwards. -/
theorem pushAll_eq {args : List NodeId} {parts : List Part}
    (h : (pushAll b args).run = .ok (some parts)) :
    parts = pushes (args.reverse.flatMap b.wordsOf).reverse ∧ ∀ x ∈ args, b.Typed x := by
  induction args generalizing parts with
  | nil =>
    cases h
    exact ⟨rfl, fun x hx => absurd hx List.not_mem_nil⟩
  | cons x args ih =>
    rw [pushAll, attempted_bind] at h
    obtain ⟨value, hvalue, h⟩ := h
    obtain ⟨first, hfirst, h⟩ := attempted_bind.1 h
    obtain ⟨rest, hrest, h⟩ := attempted_bind.1 h
    cases h
    obtain ⟨hrest, htyped⟩ := ih hrest
    replace hvalue := operand_eq_some hvalue
    obtain ⟨v, ty, rfl, -, hty⟩ := Block.exists_of_valueOf? hvalue
    -- The first argument is pushed as its words, the last one first.
    have hparts : first = pushes (b.wordsOf x).reverse := by
      rw [Block.wordsOf_of_valueOf? hvalue]
      exact (Option.some.inj (pushParts_value.symm.trans (given_eq_some hfirst))).symm
    refine ⟨?_, fun y hy => ?_⟩
    · rw [hparts, hrest, List.reverse_cons, List.flatMap_append, List.reverse_append,
        List.flatMap_singleton, pushes, pushes, pushes, List.map_append]
    · rcases List.mem_cons.1 hy with rfl | hy
      · exact ⟨ty, hty⟩
      · exact htyped y hy

/-- The bytes of the arguments are four for each of their words, so what is removed after the call
is what was pushed before it. -/
theorem stackBytesOfAll_eq {args : List NodeId} (h : ∀ x ∈ args, b.Typed x) :
    stackBytesOfAll b args = 4 * (args.flatMap b.wordsOf).length := by
  induction args with
  | nil => rfl
  | cons x args ih =>
    obtain ⟨ty, hty⟩ := h x List.mem_cons_self
    obtain ⟨v, hv⟩ := Block.valueOf?_of_typeOf? hty
    have hone : stackBytes b x = 4 * (b.wordsOf x).length := by
      rw [stackBytes, hty, Block.wordsOf_of_valueOf? hv]
      cases ty <;> rfl
    rw [stackBytesOfAll, hone, ih fun y hy => h y (List.mem_cons_of_mem x hy), List.flatMap_cons,
      List.length_append, Nat.mul_add]

/-- The arguments that a call pushes are its operands after the callee. If the callee has a name
then it is no operand, and all operands are arguments. -/
theorem callee_arguments {target : Part} {args read : List NodeId}
    (h : (callee b n).run = .ok (some (target, args, read))) : args = n.arguments := by
  unfold callee at h
  split at h
  · rename_i name himm
    cases h
    rw [Node.arguments, himm]
  · -- The callee is computed, so it is the first operand.
    rename_i himm
    split at h
    · cases h
    · rename_i first rest hinputs
      obtain ⟨value, -, h⟩ := attempted_bind.1 h
      cases h
      rw [Node.arguments, hinputs]
      split
      · exact absurd ‹_› (himm _)
      · rfl

end Lowering

namespace Block

open Lowering

variable {W : Type} {b : Block} {id : NodeId} {n : Node} {ty : ValueType} {tiles : List Tile}

/-- A call pushes the words of its arguments, calls, removes as many words, and fetches the words of
its result. The kinds of call differ in whether there is a result. -/
theorem lower_call (hn : b.node? id = some n) (hop : n.op = .call ∨ n.op = .callVoid)
    (h : b.lower id = .ok (some tiles)) :
    ∃ target results, (∀ x ∈ n.arguments, b.Typed x)
      ∧ (n.op = .call → b.Typed id ∧ results = b.wordsOf id)
      ∧ tiles = [tile id .call [id] n.inputs
          (pushes (n.arguments.flatMap b.wordsOf).reverse ++ [.plain "CALL" [target]]
            ++ removal (n.arguments.flatMap b.wordsOf).length
            ++ List.zipWith mov results resultRegisters)] := by
  have hcall : (call b id n).run = .ok (some tiles) := by
    rw [lower, node_eq_ok.2 hn, ok_bind] at h
    rcases hop with hop | hop <;> simpa only [hop] using h
  rw [call] at hcall
  obtain ⟨⟨target, args, read⟩, hcallee, hcall⟩ := attempted_bind.1 hcall
  obtain ⟨pushed, hpushes, hcall⟩ := attempted_bind.1 hcall
  obtain ⟨result, hresult, hcall⟩ := attempted_bind.1 hcall
  obtain ⟨hinputs, -⟩ := callee_eq_some hcallee
  obtain rfl := callee_arguments hcallee
  obtain ⟨hpushes, htyped⟩ := pushAll_eq hpushes
  rw [List.reverse_reverse] at hpushes
  replace htyped : ∀ x ∈ n.arguments, b.Typed x := fun x hx => htyped x (List.mem_reverse.2 hx)
  -- The lowering counts bytes by the widths of the arguments, and pushes by their words.
  have hremoval : (if stackBytesOfAll b n.arguments = 0 then []
      else [Part.plain "ADD" [.register .esp, .literal (Int64.ofNat
        (stackBytesOfAll b n.arguments))]])
      = removal (n.arguments.flatMap b.wordsOf).length := by
    rw [stackBytesOfAll_eq htyped]
    cases (n.arguments.flatMap b.wordsOf).length <;> rfl
  -- A call for no value fetches nothing, whatever its callee leaves in the registers.
  have hfetch : ∃ results, (n.op = .call → b.Typed id ∧ results = b.wordsOf id)
      ∧ result = List.zipWith mov results resultRegisters := by
    replace hresult := given_eq_some hresult
    rw [resultParts] at hresult
    split at hresult
    · obtain ⟨out, hout, hresult⟩ := Option.bind_eq_some_iff.1 hresult
      obtain ⟨v, ty, rfl, -, hty⟩ := exists_of_valueOf? hout
      refine ⟨b.wordsOf id, fun _ => ⟨⟨ty, hty⟩, rfl⟩, ?_⟩
      rw [wordsOf_of_valueOf? hout]
      exact Option.some.inj (hresult.symm.trans mov_value)
    · rename_i hvoid
      cases hresult
      exact ⟨[], fun hop => absurd hop hvoid, rfl⟩
  obtain ⟨results, hresults, rfl⟩ := hfetch
  refine ⟨target, results, htyped, hresults, ?_⟩
  cases hcall
  rw [hinputs, hpushes, hremoval]

/-- An argument is read from the argument words from its index on. The index counts words, and the
two words below the arguments are the caller's base and the return address. -/
theorem lower_arg (hn : b.node? id = some n) (hop : n.op = .arg) {index : Nat}
    (himm : n.imm = some (.arg index)) (hty : b.typeOf? id = some ty) :
    b.lower id = .ok (some [tile id .arg [id] []
      (List.zipWith mov (b.wordsOf id) [argumentWord index, argumentWord (index + 1)])]) := by
  obtain ⟨v, hv⟩ := valueOf?_of_typeOf? hty
  have hlow : argumentWord index = frame (Int64.ofNat (8 + 4 * index)) := by
    rw [argumentWord, show 4 * (index + 2) = 8 + 4 * index by omega]
  -- The high word of a wide argument is the one after its low word.
  have hhigh : argumentWord (index + 1) = frame (Int64.ofNat (8 + 4 * index) + 4) := by
    rw [argumentWord, show 4 * (index + 1 + 2) = 8 + 4 * index + 4 by omega, Int64.ofNat_add]
    rfl
  have harg : arg b id n = some [tile id .arg [id] []
      (List.zipWith mov (b.wordsOf id) [argumentWord index, argumentWord (index + 1)])] := by
    rw [arg, himm]
    dsimp only
    rw [hv, wordsOf_of_valueOf? hv, hlow, hhigh]
    cases ty <;> rfl
  rw [lower, node_eq_ok.2 hn, ok_bind, hop]
  exact pure_eq_ok.2 harg

/-- A return moves the words of its value into the registers for results, and then returns. There
are as many moves as words, one or two. -/
theorem lower_ret (hn : b.node? id = some n) (hop : n.op = .ret) {x : NodeId}
    (hinputs : n.inputs = [x]) (hty : b.typeOf? x = some ty) :
    b.lower id = .ok (some [tile id .ret [id] [x]
      (List.zipWith mov (resultRegisters.take (b.wordsOf x).length) (b.wordsOf x)
        ++ [.plain "RET" []])]) := by
  obtain ⟨v, hv⟩ := run_operand hty
  -- The value is handed over word by word.
  have hparts : (handOver b [x]).run = .ok (some
      (List.zipWith mov (resultRegisters.take (b.wordsOf x).length) (b.wordsOf x))) := by
    rw [wordsOf_of_valueOf? (operand_eq_some hv)]
    exact attempted_bind.2 ⟨_, hv, congrArg Except.ok returnParts_value⟩
  have hret : (ret b id n).run = .ok (some [tile id .ret [id] [x]
      (List.zipWith mov (resultRegisters.take (b.wordsOf x).length) (b.wordsOf x)
        ++ [.plain "RET" []])]) := by
    rw [ret, hinputs]
    exact attempted_bind.2 ⟨_, hparts, rfl⟩
  rw [lower, node_eq_ok.2 hn, ok_bind, hop]
  exact hret

/-! ## The convention -/

/-- A function finds the words that its caller pushed for an argument behind those of the arguments
before it. Their number is the index that the node for the argument has. -/
theorem word?_argumentWord {before words after : List W} {a : Activation W}
    {returnAddress base : W}
    (hframe : a.frame = base :: returnAddress :: (before ++ words ++ after))
    (hindex : before.length < UInt32.size) (hlength : words.length ≤ 2) :
    ([argumentWord before.length, argumentWord (before.length + 1)].take words.length).map a.word?
      = words.map some := by
  have hsize : UInt32.size = 4294967296 := rfl
  have hread : ∀ i < 2, a.word? (argumentWord (before.length + i)) = (words ++ after)[i]? := by
    intro i hi
    rw [argumentWord, Activation.word?_frame (by omega), hframe, List.append_assoc,
      List.getElem?_cons_succ, List.getElem?_cons_succ, List.getElem?_append_right (by omega),
      Nat.add_sub_cancel_left]
  have hfirst : a.word? (argumentWord before.length) = (words ++ after)[0]? :=
    hread 0 (by omega)
  have hsecond := hread 1 (by omega)
  -- An argument has at most two words.
  rcases words with _ | ⟨x, _ | ⟨y, _ | ⟨z, words⟩⟩⟩
  · rfl
  · exact congrArg (· :: []) hfirst
  · exact congr (congrArg (fun u v => [u, v]) hfirst) hsecond
  · exact absurd hlength (by simp)

/-- The tile of a node, run by an activation, leaves these words in the value of the node. -/
def Obtains (b : Block) (id : NodeId) (a : Activation W) (words : List W) : Prop :=
  ∃ t after, b.lower id = .ok (some [t]) ∧ a.run? t.parts = some after
    ∧ (b.wordsOf id).map after.holds = words

/-- The tile of a return, run by an activation up to the return itself, ends as `done`. -/
def Returns (b : Block) (id : NodeId) (a done : Activation W) : Prop :=
  ∃ t moves, b.lower id = .ok (some [t]) ∧ t.parts = moves ++ [.plain "RET" []]
    ∧ a.run? moves = some done

/-- Argument words are in memory, and so apart from all that holds a word; fetching one of them
disturbs no other. -/
theorem disjoint_argumentWord {dsts : List Part} (h : ∀ p ∈ dsts, p.isWord = true) (index : Nat) :
    dsts.Disjoint [argumentWord index, argumentWord (index + 1)] := by
  intro p hp hword
  have hholds := h p hp
  rcases List.mem_pair.1 hword with rfl | rfl <;> cases hholds

/-- **A function obtains its argument.** If the words of an argument stand in the frame behind as
many words as its index says, then they end up in the value of the node, low word first. -/
theorem obtains_arg (hn : b.node? id = some n) (hop : n.op = .arg) (hty : b.typeOf? id = some ty)
    {before words after : List W} {a : Activation W} {returnAddress base : W}
    (himm : n.imm = some (.arg before.length)) (hindex : before.length < UInt32.size)
    (hframe : a.frame = base :: returnAddress :: (before ++ words ++ after))
    (hlength : (b.wordsOf id).length = words.length) : b.Obtains id a words := by
  have hword : ∀ p ∈ b.wordsOf id, p.isWord = true := fun p hp => isWord_of_mem_wordsOf hty hp
  have hle := length_wordsOf_le hty
  obtain ⟨done, hrun, hholds, -⟩ := Activation.run?_mov hword (nodup_wordsOf hty)
    (disjoint_argumentWord hword before.length) hle
    (hlength ▸ word?_argumentWord hframe hindex (hlength ▸ hle))
  exact ⟨_, done, lower_arg hn hop himm hty, hrun, hholds⟩

theorem isWord_resultRegisters : ∀ r ∈ resultRegisters, r.isWord = true := by decide

/-- Registers are apart from the words of values, so no move into a register changes a value. -/
theorem disjoint_resultRegisters (hty : b.typeOf? id = some ty) :
    (b.wordsOf id).Disjoint resultRegisters := by
  obtain ⟨v, hv⟩ := exists_wordsOf hty
  rw [hv]
  cases ty <;> simp [Part.words, resultRegisters]

/-- **A function returns its value.** When it gets to the return, the registers for results hold the
words of the value, as many as it has. -/
theorem returns_ret (hn : b.node? id = some n) (hop : n.op = .ret) {x : NodeId}
    (hinputs : n.inputs = [x]) (hty : b.typeOf? x = some ty) (a : Activation W) :
    ∃ done, b.Returns id a done
      ∧ (resultRegisters.take (b.wordsOf x).length).map done.holds
          = (b.wordsOf x).map a.holds := by
  -- As many registers are written as the value has words: a narrow one leaves the second alone.
  have hlength : (resultRegisters.take (b.wordsOf x).length).length = (b.wordsOf x).length :=
    List.length_take_of_le (length_wordsOf_le hty)
  have hread : ((b.wordsOf x).take (resultRegisters.take (b.wordsOf x).length).length).map a.word?
      = ((b.wordsOf x).map a.holds).map some := by
    rw [hlength, List.take_length, List.map_map]
    exact List.map_congr_left fun p hp => Activation.word?_of_isWord (isWord_of_mem_wordsOf hty hp)
  obtain ⟨done, hrun, hholds, -⟩ := Activation.run?_mov
    (fun r hr => isWord_resultRegisters r (List.mem_of_mem_take hr))
    (List.Nodup.sublist (List.take_sublist _ _) (by decide))
    (fun p hp hx => disjoint_resultRegisters hty hx (List.mem_of_mem_take hp))
    (Nat.le_of_eq hlength) hread
  exact ⟨done, ⟨_, _, lower_ret hn hop hinputs hty, rfl, hrun⟩, hholds⟩

/-- What a call fetches from the registers for results is what they hold, as many of them as the
result has words. -/
theorem exists_run?_fetch (hty : b.typeOf? id = some ty) (a : Activation W) :
    ∃ after, a.run? (List.zipWith mov (b.wordsOf id) resultRegisters) = some after
      ∧ (b.wordsOf id).map after.holds
          = (resultRegisters.take (b.wordsOf id).length).map a.holds := by
  -- Each register holds one word and is read from where it is held.
  have hread : (resultRegisters.take (b.wordsOf id).length).map a.word?
      = ((resultRegisters.take (b.wordsOf id).length).map a.holds).map some := by
    rw [List.map_map]
    exact List.map_congr_left fun r hr =>
      Activation.word?_of_isWord (isWord_resultRegisters r (List.mem_of_mem_take hr))
  obtain ⟨after, hrun, hholds, -⟩ := Activation.run?_mov
    (fun p hp => isWord_of_mem_wordsOf hty hp) (nodup_wordsOf hty) (disjoint_resultRegisters hty)
    (length_wordsOf_le hty) hread
  exact ⟨after, hrun, hholds⟩

/-- Pushed word by word from the last, arguments stand on the stack from the first: the two
reversals, of the sequence and of the stack, cancel. -/
theorem run?_pushes_wordsOf {args : List NodeId} (htyped : ∀ x ∈ args, b.Typed x)
    (caller : Activation W) :
    caller.run? (pushes (args.flatMap b.wordsOf).reverse)
      = some { caller with
          stack := (args.flatMap b.wordsOf).map caller.holds ++ caller.stack } := by
  have hword : ∀ p ∈ (args.flatMap b.wordsOf).reverse, p.isWord = true := by
    intro p hp
    obtain ⟨x, hx, hp⟩ := List.mem_flatMap.1 (List.mem_reverse.1 hp)
    obtain ⟨ty, hty⟩ := htyped x hx
    exact isWord_of_mem_wordsOf hty hp
  rw [Activation.run?_push hword, List.map_reverse, List.reverse_reverse]

/-- A function obtains the argument at a position by the node whose index counts the words of the
arguments before that position. The words behind it are those of the later arguments and of the
caller's own stack. -/
theorem obtains_argument {args : List NodeId} {called : Activation W} {held : Part → W}
    {below : List W} (hstack : called.stack = (args.flatMap b.wordsOf).map held ++ below)
    {j : Nat} {x : NodeId} (hx : args[j]? = some x) (htyx : b.typeOf? x = some ty)
    {callee : Block} {y : NodeId} {m : Node} {index : UInt32} (hm : callee.node? y = some m)
    (hop : m.op = .arg) (himm : m.imm = some (.arg index.toNat))
    (hindex : index.toNat = ((args.take j).flatMap b.wordsOf).length)
    (hty : callee.typeOf? y = some ty) (returnAddress base : W) (holds : Part → W) :
    callee.Obtains y (called.enter returnAddress base holds) ((b.wordsOf x).map held) := by
  have hsplit : args.flatMap b.wordsOf = (args.take j).flatMap b.wordsOf ++ b.wordsOf x
      ++ (args.drop (j + 1)).flatMap b.wordsOf := by
    obtain ⟨hj, rfl⟩ := List.getElem?_eq_some_iff.1 hx
    conv_lhs => rw [← List.take_append_drop j args, List.drop_eq_getElem_cons hj]
    rw [List.flatMap_append, List.flatMap_cons, List.append_assoc]
  -- Above the two words of its own, the frame of the function is the stack of its caller.
  have hframe : (called.enter returnAddress base holds).frame = base :: returnAddress ::
      (((args.take j).flatMap b.wordsOf).map held ++ (b.wordsOf x).map held
        ++ (((args.drop (j + 1)).flatMap b.wordsOf).map held ++ below)) := by
    rw [Activation.enter, hstack, hsplit, List.map_append, List.map_append, List.append_assoc]
  have hlength : (((args.take j).flatMap b.wordsOf).map held).length = index.toNat := by
    rw [List.length_map, hindex]
  refine obtains_arg hm hop hty (hlength ▸ himm) ?_ hframe ?_
  · rw [hlength]
    exact index.toNat_lt_size
  · rw [List.length_map]
    exact length_wordsOf hty htyx

/-- What a function returns through the registers is what its caller fetches from them, provided
that nothing in between changes the registers. -/
theorem returns_fetched (htyid : b.typeOf? id = some ty) {callee : Block} {r x : NodeId} {m : Node}
    (hm : callee.node? r = some m) (hop : m.op = .ret) (hinputs : m.inputs = [x])
    (hty : callee.typeOf? x = some ty) (last : Activation W) :
    ∃ done, callee.Returns r last done
      ∧ ∀ back : Activation W, (∀ reg ∈ resultRegisters, back.holds reg = done.holds reg)
        → ∃ after, back.run? (List.zipWith mov (b.wordsOf id) resultRegisters) = some after
          ∧ (b.wordsOf id).map after.holds = (callee.wordsOf x).map last.holds := by
  obtain ⟨done, hdone, hreturned⟩ := returns_ret hm hop hinputs hty last
  refine ⟨done, hdone, fun back hback => ?_⟩
  obtain ⟨after, hrun, hfetched⟩ := exists_run?_fetch htyid back
  refine ⟨after, hrun, ?_⟩
  calc (b.wordsOf id).map after.holds
      = (resultRegisters.take (b.wordsOf id).length).map back.holds := hfetched
    _ = (resultRegisters.take (b.wordsOf id).length).map done.holds :=
        List.map_congr_left fun reg hreg => hback reg (List.mem_of_mem_take hreg)
    _ = (resultRegisters.take (callee.wordsOf x).length).map done.holds := by
        rw [length_wordsOf htyid hty]
    _ = (callee.wordsOf x).map last.holds := hreturned

/-- **Caller and callee agree.** A call whose lowering exists is one tile: it pushes words, calls,
adds four times the number of pushes to the stack pointer unless there are none, and moves the
registers for results. The pushes leave the words of the arguments on the stack, the first argument
on top and low before high. A function that was entered from there obtains each argument by an
argument node of the same width whose index counts the words before it. And if the function returns
a value of the width of the call's result, the words of the value are those that the caller finds
in the result. -/
theorem lower_call_agrees (hn : b.node? id = some n) (hop : n.op = .call ∨ n.op = .callVoid)
    (h : b.lower id = .ok (some tiles)) :
    ∃ t operands target results, tiles = [t]
      ∧ t.parts = pushes operands ++ [.plain "CALL" [target]] ++ removal operands.length
          ++ List.zipWith mov results resultRegisters
      ∧ (∀ caller : Activation W, ∃ called,
          caller.run? (pushes operands) = some called
          ∧ called.stack = (n.arguments.flatMap b.wordsOf).map caller.holds ++ caller.stack
          ∧ ∀ j x, n.arguments[j]? = some x → ∀ (callee : Block) (y : NodeId) (m : Node)
              (index : UInt32), callee.node? y = some m → m.op = .arg
              → m.imm = some (.arg index.toNat)
              → index.toNat = ((n.arguments.take j).flatMap b.wordsOf).length
              → callee.typeOf? y = b.typeOf? x → ∀ (returnAddress base : W) (holds : Part → W),
              callee.Obtains y (called.enter returnAddress base holds)
                ((b.wordsOf x).map caller.holds))
      ∧ (n.op = .call → ∀ (callee : Block) (r x : NodeId) (m : Node), callee.node? r = some m
          → m.op = .ret → m.inputs = [x] → callee.typeOf? x = b.typeOf? id
          → ∀ last : Activation W, ∃ done, callee.Returns r last done
            ∧ ∀ back : Activation W, (∀ reg ∈ resultRegisters, back.holds reg = done.holds reg)
              → ∃ after, back.run? (List.zipWith mov results resultRegisters) = some after
                ∧ (b.wordsOf id).map after.holds = (callee.wordsOf x).map last.holds) := by
  obtain ⟨target, results, htyped, hresults, rfl⟩ := lower_call hn hop h
  refine ⟨_, (n.arguments.flatMap b.wordsOf).reverse, target, results, rfl, ?_,
    fun caller => ⟨_, run?_pushes_wordsOf htyped caller, rfl, ?_⟩, fun hcall => ?_⟩
  · -- The call removes as many words as it has pushed.
    rw [List.length_reverse]
    rfl
  · -- On the way in: an argument arrives under the index that counts the words before it.
    intro j x hx callee y m index hm hmop himm hindex hty
    obtain ⟨ty, htyx⟩ := htyped x (List.mem_of_getElem? hx)
    exact obtains_argument rfl hx htyx hm hmop himm hindex (hty.trans htyx)
  · -- On the way back: the result is fetched word by word.
    intro callee r x m hm hmop hinputs hty last
    obtain ⟨⟨ty, htyid⟩, rfl⟩ := hresults hcall
    exact returns_fetched htyid hm hmop hinputs (hty.trans htyid) last

/-- A caller that passes a word, a wide value and a byte, and gets a wide value back. -/
def mixing : Block := Build.finish ⟨"mixing", "f", "entry"⟩ do
  let x ← Build.arg 0 .i32
  let y ← Build.arg 1 .i64
  let z ← Build.arg 3 .i8
  Build.producer .call .i64 [x, y, z] (some (.symbol "g")) none

/-- A function that returns its wide argument, which starts at the second argument word. -/
def mixed : Block := Build.finish ⟨"mixing", "g", "entry"⟩ do
  let y ← Build.arg 1 .i64
  Build.terminator .ret [y] [] none none

/-- The wide argument of the call in `mixing` arrives in `mixed` low before high, and so does the
result on its way back. -/
theorem lower_call_agrees_mixing :
    ∃ t operands target results called, mixing.lower 3 = .ok (some [t])
      ∧ t.parts = pushes operands ++ [.plain "CALL" [target]] ++ removal operands.length
          ++ List.zipWith mov results resultRegisters
      ∧ (⟨[], [], fun p => p⟩ : Activation Part).run? (pushes operands) = some called
      ∧ called.stack = [.value 0 .i32 none, .value 1 .i32 (some .low),
          .value 1 .i32 (some .high), .value 2 .i8 none]
      ∧ mixed.Obtains 0 (called.enter (.symbol "back") (.register .ebp) fun p => p)
          [.value 1 .i32 (some .low), .value 1 .i32 (some .high)]
      ∧ ∃ done, mixed.Returns 1 (⟨[], [], fun p => p⟩ : Activation Part) done
        ∧ ∃ after, (⟨[], [], done.holds⟩ : Activation Part).run?
            (List.zipWith mov results resultRegisters) = some after
          ∧ (mixing.wordsOf 3).map after.holds
              = [.value 0 .i32 (some .low), .value 0 .i32 (some .high)] := by
  obtain ⟨tiles, hlower⟩ : ∃ tiles, mixing.lower 3 = .ok (some tiles) := ⟨_, rfl⟩
  obtain ⟨t, operands, target, results, rfl, hparts, hcaller, hresult⟩ :=
    lower_call_agrees (n := ⟨.call, .value 3, [0, 1, 2], none, some (.symbol "g")⟩)
      (by decide) (.inl rfl) hlower
  obtain ⟨called, hrun, hstack, hobtains⟩ := hcaller ⟨[], [], fun p => p⟩
  obtain ⟨done, hdone, hback⟩ := hresult rfl mixed 1 0 ⟨.ret, .targets [], [0], none, none⟩
    (by decide) rfl rfl (by decide) ⟨[], [], fun p => p⟩
  exact ⟨t, operands, target, results, called, hlower, hparts, hrun, hstack,
    hobtains 1 1 rfl mixed 0 ⟨.arg, .value 0, [], none, some (.arg 1)⟩ 1 (by decide) rfl rfl
      (by decide) (by decide) _ _ _,
    done, hdone, hback ⟨[], [], done.holds⟩ fun reg _ => rfl⟩

end Block

end TileSelect
