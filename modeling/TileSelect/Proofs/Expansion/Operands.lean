import TileSelect.Proofs.Expansion.Lasting
import TileSelect.Proofs.Expansion.Occurrences
/-!
When an instruction becomes an operand.

No template has an instruction as operand, and no fragment of several parts can be referred to. What
is not asked is what kind of part a fragment is: if it is one instruction, a reference stands for
that instruction, and where the reference is an operand so is the instruction. Halves and addresses
are more careful, and refuse it.

This is the only way. What stands alone has an instruction as operand if and only if its template
takes a choice that is one instruction as an operand (`Tables.Finds.isFlat_iff`), however many
groups the path to that choice goes through.
-/

set_option autoImplicit false

namespace TileSelect

/-! ## Flat parts -/

namespace Part

/-- Whether an operand of the part is an instruction. -/
def takesInstruction : Part → Bool
  | .instruction _ _ operands => operands.any isInstruction
  | _ => false

/-- No instruction in the part, at any depth, has an instruction as operand. -/
def IsFlat (p : Part) : Prop := p.Everywhere (·.takesInstruction = false)

instance (p : Part) : Decidable p.IsFlat := inferInstanceAs (Decidable (∀ q ∈ p.pieces, _))

/-- Nothing in the part, at any depth, is an instruction. -/
def IsData (p : Part) : Prop := p.Everywhere (·.isInstruction = false)

variable {p : Part} {mnemonic : String} {condition : Option Condition} {os : List Part}

theorem isComposite_of_isInstruction (h : p.isInstruction = true) : p.isComposite = true := by
  cases p with
  | instruction => rfl
  | memory | label | reference | register | value | temp | imm | symbol => cases h

/-- Where there is no instruction, none has another as its operand. -/
theorem IsData.isFlat (h : p.IsData) : p.IsFlat := by
  refine h.mono fun q hq => ?_
  cases q with
  | instruction => cases hq
  | memory | label | reference | register | value | temp | imm | symbol => rfl

theorem isData_of_not_isComposite (h : p.isComposite = false) : p.IsData := by
  rw [IsData, everywhere_iff_of_not_isComposite h]
  cases p with
  | instruction | memory => cases h
  | label | reference | register | value | temp | imm | symbol => rfl

/-- There is no instruction in an address that can be encoded. So memory operands are out of the
question further down, and only the operands of instructions are left to look at. -/
theorem isData_of_encodableMemory (h : p.Everywhere EncodableMemory)
    (hp : p.isInstruction = false) : p.IsData := by
  cases p with
  | instruction => cases hp
  | memory a =>
    intro q hq
    -- An instruction in the address would be made of parts, and only the operand itself is.
    cases hinstruction : q.isInstruction with
    | false => rfl
    | true =>
      have hcomposite := isComposite_of_isInstruction hinstruction
      rw [(h.self a rfl).eq_of_isComposite hq hcomposite] at hinstruction
      cases hinstruction
  | label | reference | register | value | temp | imm | symbol =>
    exact isData_of_not_isComposite rfl

/-- An instruction is flat if there is no instruction in any of its operands. -/
theorem isFlat_instruction (h : ∀ o ∈ os, o.IsData) :
    (Part.instruction mnemonic condition os).IsFlat := by
  refine everywhere_instruction.2 ⟨?_, fun o ho => (h o ho).isFlat⟩
  rw [takesInstruction, List.any_eq_false]
  exact fun o ho => Bool.not_eq_true _ ▸ (h o ho).self

/-- What could make an instruction not flat is an operand that is an instruction. Its other operands
are addresses that can be encoded, and these have no instructions inside. -/
theorem exists_operand_of_not_isFlat
    (hencodable : (Part.instruction mnemonic condition os).Everywhere EncodableMemory)
    (h : ¬ (Part.instruction mnemonic condition os).IsFlat) :
    ∃ o ∈ os, o.isInstruction = true := by
  by_contra hnone
  refine h (isFlat_instruction fun o ho => ?_)
  refine isData_of_encodableMemory ((everywhere_instruction.1 hencodable).2 o ho) ?_
  rw [← Bool.not_eq_true]
  exact fun ho' => hnone ⟨o, ho, ho'⟩

/-- An instruction with an instruction as operand is not flat. -/
theorem not_isFlat_of_operand {o : Part} (ho : o ∈ os) (h : o.isInstruction = true) :
    ¬ (Part.instruction mnemonic condition os).IsFlat := by
  intro hflat
  have hself := hflat.self
  rw [takesInstruction, List.any_eq_false] at hself
  exact hself o ho h

end Part

/-! ## What pieces of a template become -/

namespace Draft

/-- Whatever components are put together to is a memory operand, also if there is only a base and
that has been a whole address before. -/
theorem Assembles.exists_memory {base index offset : Option Part} {scale : Nat} {q : Part}
    (h : Assembles base index scale offset q) : ∃ c, q = .memory c := by
  cases h with
  | lone adopted =>
    -- A lone component is adopted in one of three ways, each of which makes an address.
    unfold ofLoneBase at adopted
    split at adopted
    · cases adopted
      exact ⟨_, rfl⟩
    · split at adopted
      · cases adopted
        exact ⟨_, rfl⟩
      · split at adopted <;> cases adopted
        exact ⟨_, rfl⟩
  | joined _ _ _ finished =>
    rw [finish, bind_eq_ok] at finished
    obtain ⟨o, -, finished⟩ := finished
    split at finished <;> cases finished
    exact ⟨_, rfl⟩

end Draft

namespace Filling

variable {f : Filling} {p q : Part} {path : List String} {half : Option Half}
  {ty : Option ValueType}

/-- A piece of a template becomes a part, with temporaries as the template makes them. -/
def Becomes (f : Filling) (p q : Part) : Prop :=
  ∃ t t', f.Keeps t ∧ (fill f p).run.run t = (.ok q, t')

/-- Looking up names keeps the widths of the temporaries. -/
theorem respects_keeps : f.Respects fun t t' => f.Keeps t → f.Keeps t' where
  refl _ := id
  trans _ _ _ h h' := h' ∘ h
  target _ _ _ _ h ht := (ht.target h).1

/-- The parts of a template become the parts that are emitted, one by one: none is left out, and
nothing comes from anywhere else. -/
theorem becomes_of_fillAll {ps qs : List Part} {t t' : Temporaries} (ht : f.Keeps t)
    (h : (fillAll f ps).run.run t = (.ok qs, t')) :
    (∀ p ∈ ps, ∃ q ∈ qs, f.Becomes p q) ∧ ∀ q ∈ qs, ∃ p ∈ ps, f.Becomes p q := by
  induction ps generalizing qs t with
  | nil =>
    rw [fillAll, Subst.run_pure] at h
    obtain ⟨rfl, -⟩ := h
    simp
  | cons p ps ih =>
    rw [fillAll, Subst.run_bind] at h
    obtain ⟨q, t₁, hq, h⟩ := h
    obtain ⟨qs', t₂, hqs, h⟩ := Subst.run_bind.1 h
    obtain ⟨rfl, rfl⟩ := Subst.run_pure.1 h
    have hfirst : f.Becomes p q := ⟨t, t₁, ht, hq⟩
    -- The other parts are filled in with the temporaries that the first one left.
    obtain ⟨hleft, hright⟩ := ih (respects_fill respects_keeps p t t₁ q hq ht) hqs
    constructor
    · refine List.forall_mem_cons.2 ⟨⟨q, List.mem_cons_self, hfirst⟩, fun p' hp' => ?_⟩
      obtain ⟨q', hq', hbecomes⟩ := hleft p' hp'
      exact ⟨q', List.mem_cons_of_mem q hq', hbecomes⟩
    · refine List.forall_mem_cons.2 ⟨⟨p, List.mem_cons_self, hfirst⟩, fun q' hq' => ?_⟩
      obtain ⟨p', hp', hbecomes⟩ := hright q' hq'
      exact ⟨p', List.mem_cons_of_mem p hp', hbecomes⟩

/-- An instruction becomes an instruction, and its operands become the operands, one for one in both
directions. -/
theorem Becomes.instruction {mnemonic : String} {condition : Option Condition} {os : List Part}
    (h : f.Becomes (.instruction mnemonic condition os) q) :
    ∃ os', q = .instruction mnemonic condition os' ∧ (∀ o ∈ os, ∃ o' ∈ os', f.Becomes o o')
      ∧ ∀ o' ∈ os', ∃ o ∈ os, f.Becomes o o' := by
  obtain ⟨t, t', ht, h⟩ := h
  rw [fill, Subst.run_bind] at h
  obtain ⟨os', t₁, hos, h⟩ := h
  obtain ⟨rfl, -⟩ := Subst.run_pure.1 h
  exact ⟨os', rfl, becomes_of_fillAll ht hos⟩

theorem Becomes.memory {a : Address Part} (h : f.Becomes (.memory a) q) : ∃ c, q = .memory c := by
  obtain ⟨t, t', -, h⟩ := h
  obtain ⟨base, index, offset, t₁, t₂, -, -, -, hassembles⟩ := fill_memory h
  exact hassembles.exists_memory

/-- A reference becomes what its path stands for or a half of it, with the width stated if one is.
These are the three steps by which references are filled in. -/
theorem Becomes.reference (h : f.Becomes (.reference path half ty) q) :
    ∃ r r', f.MayBe path r ∧ halved half r = .ok r' ∧ q = retyped ty r' := by
  obtain ⟨t, t', ht, h⟩ := h
  rw [fill, Subst.run_bind] at h
  obtain ⟨r, t₁, hr, h⟩ := h
  obtain ⟨r', t₂, hr', hret⟩ := Subst.run_bind.1 h
  obtain ⟨hhalf, rfl⟩ := Subst.run_check.1 hr'
  obtain ⟨rfl, -⟩ := Subst.run_pure.1 hret
  exact ⟨r, r', (ht.target hr).2, hhalf, rfl⟩

/-- What is neither made of parts nor a reference stays as it is. -/
theorem Becomes.eq_of_not_isComposite (hp : p.isComposite = false)
    (hreference : ∀ path half ty, p ≠ .reference path half ty) (h : f.Becomes p q) : q = p := by
  obtain ⟨t, t', -, h⟩ := h
  cases p with
  | instruction | memory => cases hp
  | reference path half ty => exact absurd rfl (hreference path half ty)
  | label | register | value | temp | imm | symbol => exact (Subst.run_pure.1 h).1.symm

/-- Stating a width changes nothing about what is made of parts. -/
theorem retyped_of_isComposite (h : p.isComposite = true) : retyped ty p = p := by
  cases ty with
  | none => rfl
  | some ty =>
    cases p with
    | instruction | memory => rfl
    | label | reference | register | value | temp | imm | symbol => cases h

/-- Stating a width makes nothing of parts and takes nothing apart. -/
theorem isComposite_retyped : (retyped ty p).isComposite = p.isComposite := by
  cases ty with
  | none => rfl
  | some ty => cases p <;> rfl

/-- What is made of parts has no halves and is not one, so if it is involved then no half was taken,
and the part is what it was. -/
theorem eq_of_halved {r r' : Part} (h : halved half r = .ok r')
    (hcomposite : r.isComposite = true ∨ r'.isComposite = true) : r' = r := by
  unfold halved at h
  split at h
  · cases h
    rfl
  · split at h
    · rename_i hslice
      cases h
      obtain ⟨hr, hr'⟩ := Part.not_isComposite_of_slice? hslice
      rw [hr, hr'] at hcomposite
      rcases hcomposite with hcomposite | hcomposite <;> cases hcomposite
    · cases h

/-- Only a whole choice is made of parts: no half is, and no temporary. So what a reference becomes,
if it is made of parts, is what its path stands for. -/
theorem Becomes.standsFor (h : f.Becomes (.reference path half ty) q)
    (hq : q.isComposite = true) : f.StandsFor path q := by
  obtain ⟨r, r', hr, hhalf, rfl⟩ := h.reference
  rw [isComposite_retyped] at hq
  rw [retyped_of_isComposite hq, eq_of_halved hhalf (.inr hq)]
  rcases hr with hr | ⟨name, k, -, rfl⟩
  · exact hr
  · rw [eq_of_halved hhalf (.inr hq)] at hq
    cases hq

end Filling

/-! ## Paths to choices -/

namespace Instantiation

/-- A path of names leads from an instantiation through choices to a choice. -/
inductive Leads : Instantiation → List String → Instantiation → Prop
  | here {i j : Instantiation} {name : String} (chosen : Keyed.get? name i.chosen = some j) :
      Leads i [name] j
  | there {i sub j : Instantiation} {name : String} {rest : List String}
      (chosen : Keyed.get? name i.chosen = some sub) (leads : Leads sub rest j) :
      Leads i (name :: rest) j

/-- The template refers to a choice in the place of an operand. -/
def TakesAsOperand (i j : Instantiation) : Prop :=
  ∃ mnemonic condition os path half ty,
    .instruction mnemonic condition os ∈ i.record.pattern.template
      ∧ .reference path half ty ∈ os ∧ i.Leads path j

end Instantiation

/-- What is made of parts stands for the one part of a choice that the path leads to, since captured
nodes are not made of parts. -/
theorem Filling.StandsFor.exists_leads {b : Block} {i : Instantiation} {path : List String}
    {r : Part} (h : StandsFor ⟨b, i.record, i.chosen⟩ path r) (hr : r.isComposite = true) :
    ∃ j, i.Leads path j ∧ j.parts = [r] := by
  -- On the way a value or a number may be met, but neither is made of parts.
  induction path generalizing i with
  | nil => cases h
  | cons head rest ih =>
    rcases h.inv with ⟨-, -, hvalue⟩ | ⟨-, ⟨k, -, -, hfound⟩ | ⟨sub, hsub, hcase⟩⟩
    · rw [not_isComposite_of_valueOf hvalue] at hr
      cases hr
    · rw [not_isComposite_of_captured hfound] at hr
      cases hr
    · rcases hcase with ⟨rfl, hparts⟩ | ⟨-, hrest⟩
      · exact ⟨sub, .here hsub, hparts⟩
      · obtain ⟨j, hj, hparts⟩ := ih hrest
        exact ⟨j, .there hsub hj, hparts⟩

namespace Tables.Finds

variable {source : String} {t : Tables} {b : Block} {m : Match} {i j : Instantiation}
  {path : List String} {r q : Part} {half : Option Half} {ty : Option ValueType}

/-- The name of a choice is that of a group, and has no fixed meaning. No path that starts with it
can be taken for the root or a temporary. -/
theorem not_isReserved_of_choice (ht : ofSource source = .ok t) (hm : t.Finds b m)
    {chosen : List (String × Instantiation)} (hchosen : Match.Chooses b m.submatches chosen)
    {name : String} {sub : Instantiation} (hsub : (name, sub) ∈ chosen) :
    isReserved name = false := by
  obtain ⟨ms, -, hms, -⟩ := hchosen.of_mem hsub
  have hcompiled := hm.compiled ht
  obtain ⟨n, id, p, hp, hmatch⟩ := hm
  rw [(Pattern.matchWith_head hmatch).1] at hcompiled
  obtain ⟨e, he⟩ := Pattern.matchWith_placed hmatch hcompiled.distinct
  obtain ⟨pos, g, hpos, -⟩ := he.submatches.1 hms
  exact hcompiled.unreserved name (Shape.mem_idents_of_at? hpos rfl)

/-- A path that leads to a choice stands for its one part, if for anything. The induction is on the
path, which goes from choice to choice. -/
theorem parts_of_leads (ht : ofSource source = .ok t) (hleads : i.Leads path j)
    (hm : t.Finds b i.record) (hchosen : Match.Chooses b i.record.submatches i.chosen)
    (hr : Filling.StandsFor ⟨b, i.record, i.chosen⟩ path r) : j.parts = [r] := by
  -- The name of a choice is never that of a value or a temporary, so each step of the path has one
  -- meaning left.
  induction hleads with
  | here chosen =>
    have hsub := Keyed.mem_of_get? chosen
    have hname := hm.not_isReserved_of_choice ht hchosen hsub
    obtain ⟨n, id, p, hp, hmatch⟩ := hm
    rw [Filling.standsFor_chosen (Pattern.submatches_nodup hmatch) hchosen hname hsub,
      if_pos List.isEmpty_nil] at hr
    exact Filling.parts_of_singlePart hr
  | there chosen leads ih =>
    have hsub := Keyed.mem_of_get? chosen
    have hname := hm.not_isReserved_of_choice ht hchosen hsub
    obtain ⟨hfound, hchosen'⟩ := hm.of_choice (wellScoped_of_ofSource ht) hchosen hsub
    obtain ⟨n, id, p, hp, hmatch⟩ := hm
    rw [Filling.standsFor_chosen (Pattern.submatches_nodup hmatch) hchosen hname hsub,
      if_neg (by cases leads <;> simp)] at hr
    exact ih hfound hchosen' hr

/-- A reference along a path that leads to a choice becomes its one part, or a half of it, with
another width if one is stated. -/
theorem becomes_of_leads (ht : ofSource source = .ok t) (hleads : i.Leads path j)
    (hm : t.Finds b i.record) (hchosen : Match.Chooses b i.record.submatches i.chosen)
    (h : Filling.Becomes ⟨b, i.record, i.chosen⟩ (.reference path half ty) q) :
    ∃ r r', j.parts = [r] ∧ Filling.halved half r = .ok r' ∧ q = Filling.retyped ty r' := by
  obtain ⟨r, r', hr, hhalf, rfl⟩ := h.reference
  rcases hr with hr | ⟨name, k, hname, -⟩
  · exact ⟨r, r', hm.parts_of_leads ht hleads hchosen hr, hhalf, rfl⟩
  · -- The name of a choice is not that of a temporary.
    have hhead : ∃ sub, (Part.pathHead path, sub) ∈ i.chosen := by
      cases hleads with
      | here chosen => exact ⟨_, Keyed.mem_of_get? chosen⟩
      | there chosen => exact ⟨_, Keyed.mem_of_get? chosen⟩
    obtain ⟨sub, hsub⟩ := hhead
    have hnone := parse?_of_not_isReserved (hm.not_isReserved_of_choice ht hchosen hsub)
    rw [hname] at hnone
    cases hnone

end Tables.Finds

/-! ## Instantiations that are not flat -/

/-- What an instantiation emits is what the parts of its template became, one by one. Both
directions are needed: every part of the template comes out, and nothing else does. -/
theorem Match.Instantiates.becomes {b : Block} {m : Match} {i : Instantiation}
    (hi : m.Instantiates b i) :
    (∀ p ∈ i.record.pattern.template, ∃ q ∈ i.parts, Filling.Becomes ⟨b, i.record, i.chosen⟩ p q)
      ∧ ∀ q ∈ i.parts, ∃ p ∈ i.record.pattern.template,
          Filling.Becomes ⟨b, i.record, i.chosen⟩ p q := by
  cases hi with
  | intro allocated after chooses filled =>
    exact Filling.becomes_of_fillAll (fun _ _ h => absurd h List.not_mem_nil) filled

/-- An operand that is an instruction is a choice that was taken. The grammar has no instruction in
the place of an operand, and memory operands, names and constants become none. -/
theorem Pattern.Compiled.takesAsOperand {b : Block} {i : Instantiation} {os : List Part}
    {o o' : Part} {mnemonic : String} {condition : Option Condition}
    (hcompiled : i.record.pattern.Compiled)
    (item : .instruction mnemonic condition os ∈ i.record.pattern.template) (ho : o ∈ os)
    (h : Filling.Becomes ⟨b, i.record, i.chosen⟩ o o') (ho' : o'.isInstruction = true) :
    ∃ j, i.TakesAsOperand j ∧ j.parts = [o'] := by
  have hcomposite := Part.isComposite_of_isInstruction ho'
  cases o with
  | instruction =>
    -- The grammar has no instruction in the place of an operand.
    have hwritten := (hcompiled.written _ item).self.2 _ ho
    cases hwritten
  | memory =>
    obtain ⟨c, rfl⟩ := h.memory
    cases ho'
  | reference path half ty =>
    obtain ⟨j, hj, hparts⟩ := (h.standsFor hcomposite).exists_leads hcomposite
    exact ⟨j, ⟨mnemonic, condition, os, path, half, ty, item, ho, hj⟩, hparts⟩
  | label | register | value | temp | imm | symbol =>
    rw [h.eq_of_not_isComposite rfl (by simp)] at ho'
    cases ho'

namespace Tables.Finds

variable {source : String} {t : Tables} {b : Block} {m : Match} {i j : Instantiation}

/-- A choice that is taken as an operand is a single part, and that part or a half of it becomes an
operand of an instruction that is emitted. -/
theorem operand_of_takesAsOperand (ht : ofSource source = .ok t) (hm : t.Finds b m)
    (hi : m.Instantiates b i) (h : i.TakesAsOperand j) :
    ∃ mnemonic condition os half ty r r', .instruction mnemonic condition os ∈ i.parts
      ∧ j.parts = [r] ∧ Filling.halved half r = .ok r' ∧ Filling.retyped ty r' ∈ os := by
  obtain ⟨mnemonic, condition, os, path, half, ty, item, operand, leads⟩ := h
  obtain ⟨q, hq, hbecomes⟩ := hi.becomes.1 _ item
  obtain ⟨os', rfl, hoperands, -⟩ := hbecomes.instruction
  obtain ⟨o', ho', hbecomes⟩ := hoperands _ operand
  obtain ⟨r, r', hr, hhalf, rfl⟩ :=
    (hi.record_eq ▸ hm).becomes_of_leads ht leads hi.chooses hbecomes
  exact ⟨mnemonic, condition, os', half, ty, r, r', hq, hr, hhalf, ho'⟩

/-- **What stands alone is flat exactly if no choice that is one instruction is taken as an
operand.** Below an operand that is not an instruction there is no instruction at all, so one level
decides. -/
theorem isFlat_iff (ht : ofSource source = .ok t) (hm : t.Finds b m) (hi : m.Instantiates b i)
    (hstandalone : m.pattern.isStandalone = true) : (∀ p ∈ i.parts, p.IsFlat)
      ↔ ∀ j p, i.TakesAsOperand j → j.parts = [p] → p.isInstruction = false := by
  constructor
  · intro hflat j p htaken hp
    rw [← Bool.not_eq_true]
    intro hinstruction
    obtain ⟨mnemonic, condition, os, half, ty, r, r', hitem, hr, hhalf, hoperand⟩ :=
      hm.operand_of_takesAsOperand ht hi htaken
    obtain rfl : p = r := by simpa using hp.symm.trans hr
    -- An instruction has no halves and no width, so it is the operand itself.
    have hcomposite := Part.isComposite_of_isInstruction hinstruction
    rw [Filling.eq_of_halved hhalf (.inl hcomposite),
      Filling.retyped_of_isComposite hcomposite] at hoperand
    exact Part.not_isFlat_of_operand hoperand hinstruction (hflat _ hitem)
  · intro htaken p hp
    by_contra hflat
    have hencodable := (hm.builtOf_encodableMemory ht hi).parts p hp
    have hcompiled : i.record.pattern.Compiled := hi.record_eq ▸ hm.compiled ht
    rw [← hi.record_eq] at hstandalone
    -- The part comes from one item of the template, an instruction or a label.
    obtain ⟨item, hitem, hbecomes⟩ := hi.becomes.2 p hp
    have halone := List.all_eq_true.1 hstandalone item hitem
    cases item with
    | instruction mnemonic condition os =>
      obtain ⟨os', rfl, -, hoperands⟩ := hbecomes.instruction
      obtain ⟨o', ho', hinstruction⟩ := Part.exists_operand_of_not_isFlat hencodable hflat
      obtain ⟨o, ho, hbecomes⟩ := hoperands o' ho'
      obtain ⟨j, hj, hparts⟩ := hcompiled.takesAsOperand hitem ho hbecomes hinstruction
      rw [htaken j o' hj hparts] at hinstruction
      cases hinstruction
    | label =>
      rw [hbecomes.eq_of_not_isComposite rfl (by simp)] at hflat
      exact hflat (Part.isData_of_not_isComposite rfl).isFlat
    | memory | reference | register | value | temp | imm | symbol => cases halone

end Tables.Finds

end TileSelect
