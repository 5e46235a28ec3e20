import TileSelect.Proofs.Asm.Values
/-!
The pieces of assembly parts.

A part is made of parts: an instruction of its operands, a memory operand of the components of its
address. The pieces of a part are all of these at any depth, the part itself included, so that "no
reference remains" or "no operand is an instruction" is said of every piece alike.

An address that the target can encode has registers, values or temporaries as base and index, a
number or a symbol as offset, and one of four scales. Its components are not made of anything, so
no memory operand is nested inside.
-/

set_option autoImplicit false

namespace TileSelect

namespace Part

mutual

/-- The part and all that it is made of. -/
def pieces : Part → List Part
  | .instruction mnemonic condition operands =>
    .instruction mnemonic condition operands :: piecesOfAll operands
  | .memory ⟨base, index, scale, offset⟩ =>
    .memory ⟨base, index, scale, offset⟩
      :: (piecesOfOption base ++ piecesOfOption index ++ piecesOfOption offset)
  | .label name => [.label name]
  | .reference path half ty => [.reference path half ty]
  | .register r => [.register r]
  | .value v ty half => [.value v ty half]
  | .temp k ty half => [.temp k ty half]
  | .imm v ty => [.imm v ty]
  | .symbol name => [.symbol name]

/-- The pieces of several parts. -/
def piecesOfAll : List Part → List Part
  | [] => []
  | p :: ps => pieces p ++ piecesOfAll ps

/-- The pieces of a part that may be absent. -/
def piecesOfOption : Option Part → List Part
  | none => []
  | some p => pieces p

end

/-- A part is one of its own pieces, so that a property of all pieces of a part is one of the part.
-/
theorem mem_pieces_self (p : Part) : p ∈ p.pieces := by
  cases p with
  | memory a =>
    obtain ⟨base, index, scale, offset⟩ := a
    rw [pieces]
    exact List.mem_cons_self
  | instruction | label | reference | register | value | temp | imm | symbol =>
    rw [pieces]
    exact List.mem_cons_self

/-- The pieces of several parts are the pieces of any of them. -/
theorem mem_piecesOfAll {q : Part} {ps : List Part} :
    q ∈ piecesOfAll ps ↔ ∃ p ∈ ps, q ∈ p.pieces := by
  induction ps with
  | nil => simp [piecesOfAll]
  | cons p ps ih => simp [piecesOfAll, ih]

theorem mem_piecesOfOption {q : Part} {o : Option Part} :
    q ∈ piecesOfOption o ↔ ∃ p ∈ o, q ∈ p.pieces := by
  cases o <;> simp [piecesOfOption]

/-- The pieces of an instruction are the instruction and the pieces of its operands. -/
theorem mem_pieces_instruction {mnemonic : String} {condition : Option Condition}
    {os : List Part} {q : Part} :
    q ∈ (Part.instruction mnemonic condition os).pieces
      ↔ q = .instruction mnemonic condition os ∨ ∃ o ∈ os, q ∈ o.pieces := by
  rw [pieces, List.mem_cons, mem_piecesOfAll]

/-- The pieces of a memory operand are the operand itself and the pieces of what its address is made
of. -/
theorem mem_pieces_memory {a : Address Part} {q : Part} :
    q ∈ (Part.memory a).pieces
      ↔ q = .memory a ∨ (∃ p ∈ a.base, q ∈ p.pieces) ∨ (∃ p ∈ a.index, q ∈ p.pieces)
          ∨ ∃ p ∈ a.offset, q ∈ p.pieces := by
  obtain ⟨base, index, scale, offset⟩ := a
  rw [pieces, List.mem_cons, List.mem_append, List.mem_append, mem_piecesOfOption,
    mem_piecesOfOption, mem_piecesOfOption, or_assoc]

/-! ## Properties of all pieces -/

mutual

/-- What a piece is made of is a piece too. The induction follows the parts, through the operands of
an instruction and the components of an address. -/
theorem mem_pieces_trans : ∀ (p q r : Part), q ∈ p.pieces → r ∈ q.pieces → r ∈ p.pieces
  | .instruction mnemonic condition os, q, r, hq, hr => by
    rw [pieces, List.mem_cons] at hq ⊢
    rcases hq with rfl | hq
    · rwa [pieces, List.mem_cons] at hr
    · exact .inr (mem_piecesOfAll_trans os q r hq hr)
  | .memory ⟨base, index, scale, offset⟩, q, r, hq, hr => by
    rw [pieces, List.mem_cons, List.mem_append, List.mem_append] at hq ⊢
    rcases hq with rfl | (hq | hq) | hq
    · rwa [pieces, List.mem_cons, List.mem_append, List.mem_append] at hr
    · exact .inr (.inl (.inl (mem_piecesOfOption_trans base q r hq hr)))
    · exact .inr (.inl (.inr (mem_piecesOfOption_trans index q r hq hr)))
    · exact .inr (.inr (mem_piecesOfOption_trans offset q r hq hr))
  | .label _, q, r, hq, hr | .reference .., q, r, hq, hr | .register _, q, r, hq, hr
  | .value .., q, r, hq, hr | .temp .., q, r, hq, hr | .imm .., q, r, hq, hr
  | .symbol _, q, r, hq, hr => by
    rw [pieces, List.mem_singleton] at hq
    exact hq ▸ hr

theorem mem_piecesOfAll_trans : ∀ (ps : List Part) (q r : Part), q ∈ piecesOfAll ps →
    r ∈ q.pieces → r ∈ piecesOfAll ps
  | [], q, r, hq, hr => absurd hq List.not_mem_nil
  | p :: ps, q, r, hq, hr => by
    rw [piecesOfAll, List.mem_append] at hq ⊢
    rcases hq with hq | hq
    · exact .inl (mem_pieces_trans p q r hq hr)
    · exact .inr (mem_piecesOfAll_trans ps q r hq hr)

theorem mem_piecesOfOption_trans : ∀ (o : Option Part) (q r : Part), q ∈ piecesOfOption o →
    r ∈ q.pieces → r ∈ piecesOfOption o
  | none, q, r, hq, hr => absurd hq List.not_mem_nil
  | some p, q, r, hq, hr => by
    rw [piecesOfOption] at hq ⊢
    exact mem_pieces_trans p q r hq hr

end

/-- Every piece has a property. -/
def Everywhere (P : Part → Prop) (p : Part) : Prop := ∀ q ∈ p.pieces, P q

/-- Every piece of a part that may be absent has a property. -/
def EverywhereOption (P : Part → Prop) (o : Option Part) : Prop := ∀ p ∈ o, p.Everywhere P

variable {P Q : Part → Prop} {p : Part}

theorem Everywhere.self (h : p.Everywhere P) : P p := h p p.mem_pieces_self

/-- A weaker property holds wherever a stronger one does. -/
theorem Everywhere.mono (hPQ : ∀ q, P q → Q q) (h : p.Everywhere P) : p.Everywhere Q :=
  fun q hq => hPQ q (h q hq)

/-- A property of all pieces of a part is one of all pieces of each of its pieces. -/
theorem Everywhere.of_mem_pieces {q : Part} (h : p.Everywhere P) (hq : q ∈ p.pieces) :
    q.Everywhere P :=
  fun r hr => h r (mem_pieces_trans p q r hq hr)

/-- To hold everywhere in an instruction is to hold of it and everywhere in its operands. With this
and the lemma for memory a property is followed down a part. -/
theorem everywhere_instruction {mnemonic : String} {condition : Option Condition}
    {os : List Part} :
    (Part.instruction mnemonic condition os).Everywhere P
      ↔ P (.instruction mnemonic condition os) ∧ ∀ o ∈ os, o.Everywhere P := by
  simp only [Everywhere, mem_pieces_instruction]
  grind

/-- To hold everywhere in a memory operand is to hold of it and everywhere in its components. -/
theorem everywhere_memory {a : Address Part} :
    (Part.memory a).Everywhere P
      ↔ P (.memory a) ∧ EverywhereOption P a.base ∧ EverywhereOption P a.index
          ∧ EverywhereOption P a.offset := by
  simp only [Everywhere, EverywhereOption, mem_pieces_memory]
  grind

/-- Whether the part is made of parts. -/
def isComposite : Part → Bool
  | .instruction .. | .memory .. => true
  | _ => false

/-- A part that is not made of parts is its only piece. -/
theorem everywhere_iff_of_not_isComposite (h : p.isComposite = false) :
    p.Everywhere P ↔ P p := by
  have hpieces : p.pieces = [p] := by
    cases p with
    | instruction | memory => cases h
    | label | reference | register | value | temp | imm | symbol => rfl
  simp [Everywhere, hpieces]

theorem not_isComposite_of_isConstant (h : p.isConstant = true) : p.isComposite = false := by
  cases p with
  | instruction | memory => cases h
  | label | reference | register | value | temp | imm | symbol => rfl

theorem not_isComposite_of_isRegisterLike (h : p.isRegisterLike = true) :
    p.isComposite = false := by
  cases p with
  | instruction | memory => cases h
  | label | reference | register | value | temp | imm | symbol => rfl

/-- Only an operand that is not made of parts has halves, and they are not made of parts either.
Taking a half therefore never reaches into an instruction or an address. -/
theorem not_isComposite_of_slice? {half : Half} {q : Part} (h : p.slice? half = some q) :
    p.isComposite = false ∧ q.isComposite = false := by
  revert h
  fun_cases slice? half p
  all_goals
    intro h
    first
      | cases h
      | obtain ⟨narrow, -, rfl⟩ := Option.map_eq_some_iff.1 h
        exact ⟨rfl, rfl⟩

end Part

/-! ## Addresses that can be encoded -/

namespace Address

/-- The scales that the target can encode. -/
def scales : List Nat := [1, 2, 4, 8]

/-- The target can encode the address. -/
structure Encodable (a : Address Part) : Prop where
  nonempty : a.base.isSome = true ∨ a.index.isSome = true ∨ a.offset.isSome = true
  base : ∀ p ∈ a.base, p.isRegisterLike = true
  index : ∀ p ∈ a.index, p.isRegisterLike = true
  offset : ∀ p ∈ a.offset, p.isConstant = true
  scale : a.scale ∈ scales

/-- Nothing inside an address that can be encoded is made of parts: its base and index are registers
and its offset is a constant. The one composite piece is the address itself. -/
theorem Encodable.eq_of_isComposite {a : Address Part} (h : a.Encodable) {q : Part}
    (hq : q ∈ (Part.memory a).pieces) (hcomposite : q.isComposite = true) : q = .memory a := by
  have hcomponent : ∀ p : Part, p.isComposite = false → ¬ q ∈ p.pieces := by
    intro p hp hmem
    have honly : p.Everywhere (· = p) := (Part.everywhere_iff_of_not_isComposite hp).2 rfl
    rw [honly q hmem, hp] at hcomposite
    cases hcomposite
  rcases Part.mem_pieces_memory.1 hq with rfl | ⟨p, hp, hmem⟩ | ⟨p, hp, hmem⟩ | ⟨p, hp, hmem⟩
  · rfl
  · exact absurd hmem (hcomponent p (Part.not_isComposite_of_isRegisterLike (h.base p hp)))
  · exact absurd hmem (hcomponent p (Part.not_isComposite_of_isRegisterLike (h.index p hp)))
  · exact absurd hmem (hcomponent p (Part.not_isComposite_of_isConstant (h.offset p hp)))

end Address

end TileSelect
