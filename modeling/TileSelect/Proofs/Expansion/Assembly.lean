import TileSelect.Proofs.Asm.Pieces
import TileSelect.Proofs.Expansion.Explicit
import TileSelect.Proofs.Expansion.Resolution
/-!
How memory operands are put together.

Filling in a memory operand fills in its components, one after the other, and assembles what they
became (`Filling.fill_memory`). Registers keep their places or move from base to index with an
address that is taken over. All constants become displacements: that of the index is scaled, and
the sum of all is the offset. There are three components, so at most three displacements are added
up, and each of them once (`Draft.Assembles.madeOf`).
-/

set_option autoImplicit false

namespace TileSelect

namespace Draft

/-- Adds a component to a draft, if it is there. -/
def addOption (add : Draft → Part → Except SubstFault Draft) (d : Draft) :
    Option Part → Except SubstFault Draft
  | some p => add d p
  | none => .ok d

/-- What substituted components are put together to. -/
inductive Assembles : Option Part → Option Part → Nat → Option Part → Part → Prop
  | lone {p q : Part} {scale : Nat} (adopted : ofLoneBase p = .ok q) :
    Assembles (some p) none scale none q
  | joined {base index offset : Option Part} {scale : Nat} {d₁ d₂ d₃ : Draft} {q : Part}
      (addedBase : addOption addBase .start base = .ok d₁)
      (addedIndex : addOption (fun d => d.addIndex scale) d₁ index = .ok d₂)
      (addedOffset : addOption addOffset d₂ offset = .ok d₃) (finished : d₃.finish = .ok q) :
    Assembles base index scale offset q

end Draft

namespace Filling

variable {f : Filling} {t t' : Temporaries}

/-- Adding a component allocates nothing, so a step that adds one is the addition and no more. -/
theorem run_addComponent {add : Draft → Part → Except SubstFault Draft} {d d' : Draft}
    {o : Option Part} : (addComponent add d o).run.run t = (.ok d', t')
      ↔ Draft.addOption add d o = .ok d' ∧ t' = t := by
  cases o with
  | none =>
    rw [addComponent, Subst.run_pure, Draft.addOption, Except.ok.injEq]
  | some p => exact Subst.run_check

/-- **Filling in a memory operand** fills in its components, one after the other, and puts them
together. The components may allocate temporaries; putting them together does not. -/
theorem fill_memory {a : Address Part} {q : Part}
    (h : (fill f (.memory a)).run.run t = (.ok q, t')) :
    ∃ base index offset t₁ t₂, (fillOption f a.base).run.run t = (.ok base, t₁)
      ∧ (fillOption f a.index).run.run t₁ = (.ok index, t₂)
      ∧ (fillOption f a.offset).run.run t₂ = (.ok offset, t')
      ∧ Draft.Assembles base index a.scale offset q := by
  obtain ⟨base, index, scale, offset⟩ := a
  rw [fill, Subst.run_bind] at h
  obtain ⟨base', t₁, hbase, h⟩ := h
  split at h
  · -- The template is a base alone, so there is nothing to fill in after it.
    obtain ⟨hlone, rfl⟩ := Subst.run_check.1 h
    exact ⟨_, none, none, t', t', hbase, rfl, rfl, .lone hlone⟩
  · obtain ⟨d₁, t₂, hd₁, h⟩ := Subst.run_bind.1 h
    obtain ⟨index', t₃, hindex, h⟩ := Subst.run_bind.1 h
    obtain ⟨d₂, t₄, hd₂, h⟩ := Subst.run_bind.1 h
    obtain ⟨offset', t₅, hoffset, h⟩ := Subst.run_bind.1 h
    obtain ⟨d₃, t₆, hd₃, h⟩ := Subst.run_bind.1 h
    obtain ⟨hfinish, rfl⟩ := Subst.run_check.1 h
    obtain ⟨hadd₁, rfl⟩ := run_addComponent.1 hd₁
    obtain ⟨hadd₂, rfl⟩ := run_addComponent.1 hd₂
    obtain ⟨hadd₃, rfl⟩ := run_addComponent.1 hd₃
    exact ⟨base', index', offset', _, _, hbase, hindex, hoffset,
      .joined hadd₁ hadd₂ hadd₃ hfinish⟩

end Filling

/-! ## Addresses by what they are made of -/

/-- One displacement, or the number that two or three of them add up to. -/
def Part.SumOf (D : Part → Prop) (p : Part) : Prop :=
  D p ∨ ∃ vs : List Int64, 2 ≤ vs.length ∧ vs.length ≤ 3 ∧ (∀ v ∈ vs, ∃ ty, D (.imm v ty))
    ∧ p = .literal vs.sum

/-- What is a sum of displacements of one kind is one of displacements of any wider kind. -/
theorem Part.SumOf.mono {D D' : Part → Prop} (hD : ∀ p, D p → D' p) {p : Part}
    (h : p.SumOf D) : p.SumOf D' := by
  rcases h with h | ⟨vs, htwo, hthree, hvs, rfl⟩
  · exact .inl (hD p h)
  · refine .inr ⟨vs, htwo, hthree, fun v hv => ?_, rfl⟩
    obtain ⟨ty, hty⟩ := hvs v hv
    exact ⟨ty, hD _ hty⟩

/-- An address that can be encoded, with registers and displacements of known kinds. -/
structure Address.MadeOf (R D : Part → Prop) (a : Address Part) : Prop extends a.Encodable where
  registers : ∀ p, a.base = some p ∨ a.index = some p → R p
  displacement : ∀ p ∈ a.offset, p.SumOf D

/-- A property that an address has, its registers and its offset, is one of all its pieces. An
address that can be encoded has no other pieces than these. -/
theorem Address.Encodable.everywhere {P : Part → Prop} {a : Address Part} (h : a.Encodable)
    (hself : P (.memory a)) (hregisters : ∀ p, a.base = some p ∨ a.index = some p → P p)
    (hoffset : ∀ p ∈ a.offset, P p) : (Part.memory a).Everywhere P := by
  have hregister : ∀ p : Part, p.isRegisterLike = true → P p → p.Everywhere P := fun p hp =>
    (Part.everywhere_iff_of_not_isComposite (Part.not_isComposite_of_isRegisterLike hp)).2
  have hconstant : ∀ p : Part, p.isConstant = true → P p → p.Everywhere P := fun p hp =>
    (Part.everywhere_iff_of_not_isComposite (Part.not_isComposite_of_isConstant hp)).2
  exact Part.everywhere_memory.2 ⟨hself,
    fun p hp => hregister p (h.base p hp) (hregisters p (.inl hp)),
    fun p hp => hregister p (h.index p hp) (hregisters p (.inr hp)),
    fun p hp => hconstant p (h.offset p hp) (hoffset p hp)⟩

/-! ## Drafts -/

namespace Draft

variable {R D : Part → Prop} {k : Nat} {d d' : Draft} {p q : Part}

/-- What is in is of known kinds and in places where it can be encoded, with at most `k`
displacements. -/
structure Fits (R D : Part → Prop) (k : Nat) (d : Draft) : Prop where
  base : ∀ p ∈ d.base, p.isRegisterLike = true ∧ R p
  index : ∀ p ∈ d.index, p.isRegisterLike = true ∧ R p
  scale : d.scale ∈ Address.scales
  displacements : ∀ p ∈ d.displacements, p.isConstant = true ∧ D p
  few : d.displacements.length ≤ k

/-- A draft to which nothing was added fits, without any displacement. -/
theorem fits_start : Draft.start.Fits R D 0 :=
  ⟨by simp [start], by simp [start], List.mem_cons_self, by simp [start], Nat.le_refl 0⟩

theorem Fits.succ (h : d.Fits R D k) : d.Fits R D (k + 1) :=
  ⟨h.base, h.index, h.scale, h.displacements, Nat.le_succ_of_le h.few⟩

/-- A constant is kept among the displacements and uses up one of the bound. The bound is on how
many displacements a template can bring, one for each component. -/
theorem Fits.displace (h : d.Fits R D k) (hconst : p.isConstant = true) (hp : D p) :
    (d.displace p).Fits R D (k + 1) := by
  refine ⟨h.base, h.index, h.scale, fun q hq => ?_, ?_⟩
  · rcases List.mem_append.1 hq with hq | hq
    · exact h.displacements q hq
    · rw [List.mem_singleton.1 hq]
      exact ⟨hconst, hp⟩
  · rw [Draft.displace, List.length_append, List.length_singleton]
    exact Nat.succ_le_succ h.few

/-- **A base is a register or a displacement.** Anything else is refused, so a draft that was built
has nothing else as its base. -/
theorem Fits.addBase (h : d.Fits R D k) (hregister : p.isRegisterLike = true → R p)
    (hconstant : p.isConstant = true → D p) (hadd : d.addBase p = .ok d') :
    d'.Fits R D (k + 1) := by
  rw [Draft.addBase] at hadd
  split at hadd
  · rename_i hconst
    cases hadd
    exact h.displace hconst (hconstant hconst)
  · -- A register becomes the base and leaves everything else in the draft alone.
    split at hadd
    · rename_i hlike
      cases hadd
      refine ⟨fun q hq => ?_, h.index, h.scale, h.displacements, Nat.le_succ_of_le h.few⟩
      cases hq
      exact ⟨hlike, hregister hlike⟩
    · cases hadd

/-- **An index is a register, a displacement or an address.** A number is multiplied by the scale
right away; an address can only be taken over when nothing else stands in the way, and its own parts
fit because they did before. -/
theorem Fits.addIndex {scale : Nat} (hscale : scale ∈ Address.scales) (h : d.Fits R D k)
    (hregister : p.isRegisterLike = true → R p) (hconstant : p.isConstant = true → D p)
    (hscaled : ∀ v ty, p = .imm v ty → D (.imm (v * Int64.ofNat scale) ty))
    (hmemory : ∀ a, p = .memory a → a.MadeOf R D) (hadd : d.addIndex scale p = .ok d') :
    d'.Fits R D (k + 1) := by
  unfold Draft.addIndex at hadd
  split at hadd
  · rename_i inner
    split at hadd
    · split at hadd
      · -- A scaled index is taken over with its scale; both can be encoded where it was made.
        cases hadd
        have hinner := hmemory inner rfl
        refine ⟨h.base, fun q hq => ?_, hinner.scale, h.displacements, Nat.le_succ_of_le h.few⟩
        exact ⟨hinner.index q hq, hinner.registers q (.inr hq)⟩
      · cases hadd
    · cases hadd
  · rename_i v ty
    cases hadd
    exact h.displace rfl (hscaled v ty rfl)
  · split at hadd
    · rename_i hconst
      rw [Bool.and_eq_true] at hconst
      cases hadd
      exact h.displace hconst.1 (hconstant hconst.1)
    · split at hadd
      · rename_i hlike
        cases hadd
        refine ⟨h.base, fun q hq => ?_, hscale, h.displacements, Nat.le_succ_of_le h.few⟩
        cases hq
        exact ⟨hlike, hregister hlike⟩
      · cases hadd

/-- An offset has to be a constant, and it becomes one displacement more; anything else is refused.
-/
theorem Fits.addOffset (h : d.Fits R D k) (hconstant : p.isConstant = true → D p)
    (hadd : d.addOffset p = .ok d') : d'.Fits R D (k + 1) := by
  rw [Draft.addOffset] at hadd
  split at hadd
  · rename_i hconst
    cases hadd
    exact h.displace hconst (hconstant hconst)
  · cases hadd

/-- Only numbers are added up, and the sum is a number of no width. A symbol can be a displacement
but only on its own. -/
theorem sum_of_foldlM_addDisplacement {rest : List Part} (hrest : rest ≠ []) {first : Part}
    (h : rest.foldlM addDisplacement first = .ok q) :
    ∃ (v : Int64) (ty : Option ValueType) (vs : List Int64),
      first = .imm v ty ∧ vs.length = rest.length
      ∧ (∀ v' ∈ vs, ∃ ty', .imm v' ty' ∈ rest) ∧ q = .literal (v + vs.sum) := by
  -- What has been added up so far takes the place of the first, and is a number from then on.
  induction rest generalizing first with
  | nil => exact absurd rfl hrest
  | cons next rest ih =>
    rw [List.foldlM_cons, bind_eq_ok] at h
    obtain ⟨sum, hsum, h⟩ := h
    unfold addDisplacement at hsum
    split at hsum
    · rename_i v ty v' ty'
      cases hsum
      cases rest with
      | nil =>
        cases h
        refine ⟨v, ty, [v'], rfl, rfl, fun w hw => ⟨ty', ?_⟩, ?_⟩
        · rw [List.mem_singleton.1 hw]
          exact List.mem_cons_self
        · rw [List.sum_singleton]
      | cons next' rest =>
        obtain ⟨w, ty'', vs, hfirst, hlength, hmem, rfl⟩ := ih (List.cons_ne_nil _ _) h
        cases hfirst
        refine ⟨v, ty, v' :: vs, rfl, congrArg (· + 1) hlength, fun w hw => ?_, ?_⟩
        · rcases List.mem_cons.1 hw with rfl | hw
          · exact ⟨ty', List.mem_cons_self⟩
          · obtain ⟨ty', hty'⟩ := hmem w hw
            exact ⟨ty', List.mem_cons_of_mem _ hty'⟩
        · rw [List.sum_cons, Int64.add_assoc]
    · cases hsum

/-- The offset is the sum of the displacements. There are at most three of them, one from each place
in which a component can be written. -/
theorem Fits.offset {o : Option Part} (h : d.Fits R D 3) (hoffset : d.offset = .ok o) :
    ∀ p ∈ o, p.isConstant = true ∧ p.SumOf D := by
  unfold Draft.offset at hoffset
  split at hoffset
  · cases hoffset
    exact fun _ hp => by cases hp
  · rename_i first rest hdisplacements
    have hall : ∀ p ∈ first :: rest, p.isConstant = true ∧ D p := hdisplacements ▸ h.displacements
    have hfew : rest.length + 1 ≤ 3 := by
      have := h.few
      rwa [hdisplacements, List.length_cons] at this
    rw [map_eq_pure_bind, bind_eq_ok] at hoffset
    obtain ⟨sum, hsum, hoffset⟩ := hoffset
    cases hoffset
    intro p hp
    cases hp
    -- One displacement stays what it is, a symbol too; two or three are numbers and are added.
    by_cases hrest : rest = []
    · subst hrest
      cases hsum
      have hfirst := hall _ List.mem_cons_self
      exact ⟨hfirst.1, .inl hfirst.2⟩
    · obtain ⟨v, ty, vs, rfl, hlength, hmem, rfl⟩ := sum_of_foldlM_addDisplacement hrest hsum
      have hpos := List.length_pos_of_ne_nil hrest
      refine ⟨rfl, .inr ⟨v :: vs, ?_, ?_, fun w hw => ?_, by rw [List.sum_cons]⟩⟩
      · rw [List.length_cons]
        omega
      · rw [List.length_cons]
        omega
      · rcases List.mem_cons.1 hw with rfl | hw
        · exact ⟨ty, (hall _ List.mem_cons_self).2⟩
        · obtain ⟨ty', hty'⟩ := hmem w hw
          exact ⟨ty', (hall _ (List.mem_cons_of_mem _ hty')).2⟩

/-- **A draft becomes an address that can be encoded.** What was kept in it as base and index are
registers, and what was kept as displacements is one sum. -/
theorem Fits.finish (h : d.Fits R D 3) (hfinish : d.finish = .ok q) :
    ∃ c, q = .memory c ∧ c.MadeOf R D := by
  rw [Draft.finish, bind_eq_ok] at hfinish
  obtain ⟨o, ho, hfinish⟩ := hfinish
  have hoffset := h.offset ho
  split at hfinish
  · cases hfinish
  · rename_i hempty
    cases hfinish
    refine ⟨_, rfl, ⟨?_, fun p hp => (h.base p hp).1, fun p hp => (h.index p hp).1,
      fun p hp => (hoffset p hp).1, h.scale⟩, fun p hp => ?_, fun p hp => (hoffset p hp).2⟩
    · -- An address of no components is refused.
      simp only [Bool.and_eq_true, Option.isNone_iff_eq_none, not_and] at hempty
      simp only [Option.isSome_iff_ne_none]
      tauto
    · rcases hp with hp | hp
      · exact (h.base p hp).2
      · exact (h.index p hp).2

/-- A component that stands alone becomes an address in one of three ways: it is one already, it is
a constant, or it is a register. -/
theorem madeOf_ofLoneBase (hregister : p.isRegisterLike = true → R p)
    (hconstant : p.isConstant = true → D p) (hmemory : ∀ a, p = .memory a → a.MadeOf R D)
    (h : ofLoneBase p = .ok q) : ∃ c, q = .memory c ∧ c.MadeOf R D := by
  unfold ofLoneBase at h
  split at h
  · rename_i inner
    cases h
    exact ⟨inner, rfl, hmemory inner rfl⟩
  · split at h
    · rename_i hconst
      cases h
      refine ⟨_, rfl, ⟨by simp [Address.ofOffset], ?_, ?_, ?_, List.mem_cons_self⟩, ?_, ?_⟩
        <;> simp [Address.ofOffset, hconst, hconstant hconst, Part.SumOf]
    · split at h
      · rename_i hlike
        cases h
        refine ⟨_, rfl, ⟨by simp [Address.ofBase], ?_, ?_, ?_, List.mem_cons_self⟩, ?_, ?_⟩
          <;> simp [Address.ofBase, hlike, hregister hlike]
      · cases h

/-- **What components are put together to**: an address that can be encoded, of the registers among
them and with the sum of the constants, the index scaled, as offset. -/
theorem Assembles.madeOf {base index offset : Option Part} {scale : Nat}
    (h : Assembles base index scale offset q) (hscale : scale ∈ Address.scales)
    (hregister : ∀ p, base = some p ∨ index = some p → p.isRegisterLike = true → R p)
    (hconstant : ∀ p, base = some p ∨ index = some p ∨ offset = some p → p.isConstant = true → D p)
    (hscaled : ∀ v ty, index = some (.imm v ty) → D (.imm (v * Int64.ofNat scale) ty))
    (hmemory : ∀ a, base = some (.memory a) ∨ index = some (.memory a) → a.MadeOf R D) :
    ∃ c, q = .memory c ∧ c.MadeOf R D := by
  cases h with
  | lone adopted =>
    exact madeOf_ofLoneBase (hregister _ (.inl rfl)) (hconstant _ (.inl rfl))
      (fun a ha => hmemory a (.inl (congrArg some ha))) adopted
  | @joined _ _ _ _ d₁ d₂ d₃ _ addedBase addedIndex addedOffset finished =>
    -- A component that is missing leaves the draft as it is, and the bound may be relaxed.
    have hoption : ∀ {add : Draft → Part → Except SubstFault Draft} {d d' : Draft} {k : Nat}
        {o : Option Part}, (∀ p, o = some p → add d p = .ok d' → d'.Fits R D (k + 1)) →
        d.Fits R D k → addOption add d o = .ok d' → d'.Fits R D (k + 1) := by
      intro add d d' k o hadd hd h
      cases o with
      | none =>
        cases h
        exact hd.succ
      | some p => exact hadd p rfl h
    -- Base, index and offset are added in this order, each of them raising the bound by one.
    have h₁ : d₁.Fits R D 1 := by
      refine hoption (fun p hp => ?_) fits_start addedBase
      exact fits_start.addBase (hregister p (.inl hp)) (hconstant p (.inl hp))
    have h₂ : d₂.Fits R D 2 := by
      refine hoption (fun p hp => ?_) h₁ addedIndex
      exact h₁.addIndex hscale (hregister p (.inr hp)) (hconstant p (.inr (.inl hp)))
        (fun v ty hv => hscaled v ty (hv ▸ hp)) fun a ha => hmemory a (.inr (ha ▸ hp))
    have h₃ : d₃.Fits R D 3 := by
      refine hoption (fun p hp => ?_) h₂ addedOffset
      exact h₂.addOffset (hconstant p (.inr (.inr hp)))
    exact h₃.finish finished

end Draft

end TileSelect
