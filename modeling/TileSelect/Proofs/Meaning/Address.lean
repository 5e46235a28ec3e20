import Mathlib.Data.BitVec
import Mathlib.Tactic.Ring
import TileSelect.Proofs.Expansion.Filling
import TileSelect.Proofs.Meaning.Machine
/-!
Addresses are sums.

A draft takes components of all sorts: constants where registers were meant, whole addresses,
indexes that are scaled already. Whatever it takes, and wherever it puts it, the number it stands
for grows by what the component stands for, times the scale if the component came as an index. So
the finished address stands for the sum of the components as the template weighted them.
-/

set_option autoImplicit false

namespace TileSelect

variable {w : World} {st : State}

/-- The draft stands for a number: base, scaled index and all displacements added up. -/
def Draft.Sums (w : World) (st : State) (d : Draft) (x : Word) : Prop :=
  ∃ base index shifts, d.base.elim (some 0) (Part.number? w st) = some base
    ∧ d.index.elim (some 0) (Part.number? w st) = some index
    ∧ d.displacements.mapM (Part.number? w st) = some shifts
    ∧ base + index * BitVec.ofNat 32 d.scale + shifts.sum = x

namespace Draft

variable {d d' : Draft} {p q : Part} {x y : Word} {datum : Datum Word} {scale : Nat}

theorem sums_start : Draft.start.Sums w st 0 :=
  ⟨0, 0, [], rfl, rfl, rfl, by simp⟩

/-- One more displacement adds what it stands for. A number or a symbol stands for the same in every
state. -/
theorem Sums.displace (hd : d.Sums w st x) (hp : p.number? w st = some y) :
    (d.displace p).Sums w st (x + y) := by
  obtain ⟨base, index, shifts, hbase, hindex, hshifts, rfl⟩ := hd
  refine ⟨base, index, shifts ++ [y], hbase, hindex, ?_, ?_⟩
  · simp only [Draft.displace, List.mapM_append, hshifts, List.mapM_cons, hp, List.mapM_nil]
    rfl
  · rw [List.sum_append, List.sum_singleton]
    exact (add_assoc _ _ _).symm

/-- A register is a base where there was none. -/
theorem Sums.setBase (hd : d.Sums w st x) (hnone : d.base = none) (hp : p.number? w st = some y) :
    ({ d with base := some p } : Draft).Sums w st (x + y) := by
  obtain ⟨base, index, shifts, hbase, hindex, hshifts, rfl⟩ := hd
  rw [hnone] at hbase
  cases hbase
  exact ⟨y, index, shifts, hp, hindex, hshifts, by ring⟩

/-- An index that is set where there was none adds what it stands for, times the scale. -/
theorem Sums.setIndex {i : Option Part} (hd : d.Sums w st x) (scale : Nat)
    (hnone : d.index = none) (hi : i.elim (some 0) (Part.number? w st) = some y) :
    ({ d with index := i, scale := scale } : Draft).Sums w st (x + y * BitVec.ofNat 32 scale) := by
  obtain ⟨base, index, shifts, hbase, hindex, hshifts, rfl⟩ := hd
  rw [hnone] at hindex
  cases hindex
  exact ⟨base, y, shifts, hbase, hi, hshifts, by ring⟩

theorem ne_memory_of_isConstant (h : p.isConstant = true) (a : Address Part) : p ≠ .memory a := by
  rintro rfl
  cases h

theorem ne_memory_of_isRegisterLike (h : p.isRegisterLike = true) (a : Address Part) :
    p ≠ .memory a := by
  rintro rfl
  cases h

/-- A base adds what it stands for, whether it is kept as a register or put among the displacements.
What cannot be a base is refused. -/
theorem Sums.addBase (hd : d.Sums w st x) (hnone : d.base = none) (h : d.addBase p = .ok d')
    (hp : p.datum? w st = some datum) : d'.Sums w st (x + datum.weight) := by
  rw [Draft.addBase] at h
  split at h
  · rename_i hconst
    cases h
    exact hd.displace (Part.number?_of_datum? hp (ne_memory_of_isConstant hconst))
  · split at h
    · rename_i hregister
      cases h
      exact hd.setBase hnone (Part.number?_of_datum? hp (ne_memory_of_isRegisterLike hregister))
    · cases h

/-- **An index adds what it stands for, times the scale.** A register is kept with the scale, a
number is multiplied right away, and an address of an index alone lends its index, with both scales
multiplied. All of this is arithmetic of 32 bits, in which nothing is lost by the order of the
operations. -/
theorem Sums.addIndex (hd : d.Sums w st x) (hnone : d.index = none)
    (h : d.addIndex scale p = .ok d') (hp : p.datum? w st = some datum) :
    d'.Sums w st (x + datum.weight * BitVec.ofNat 32 scale) := by
  unfold Draft.addIndex at h
  split at h
  · rename_i inner
    obtain ⟨z, hz, rfl⟩ := Part.datum?_memory.1 hp
    split at h
    · rename_i hscaled
      split at h
      · rename_i hscale
        cases h
        -- The address is an index and nothing else, so it is the scaled index that it stands for.
        simp only [Address.isScaledIndex, Bool.and_eq_true, Option.isNone_iff_eq_none] at hscaled
        obtain ⟨base, index, offset, hbase, hindex, hoffset, rfl⟩ := Address.sum?_eq_some.1 hz
        rw [hscaled.1.2] at hbase
        rw [hscaled.2] at hoffset
        cases hbase
        cases hoffset
        have hsum := hd.setIndex inner.scale hnone hindex
        simpa [Datum.weight, hscale] using hsum
      · cases h
    · cases h
  · -- A number is multiplied right away and becomes a displacement.
    rename_i v ty
    cases h
    have hweight : Word.ofNumber v = datum.weight :=
      Option.some.inj (Part.number?_of_datum? hp (by simp))
    rw [← hweight, ← Word.ofNumber_mul]
    exact hd.displace rfl
  · split at h
    · -- A symbol cannot be multiplied; it is a displacement if the scale is one.
      rename_i hconst
      rw [Bool.and_eq_true, beq_iff_eq] at hconst
      cases h
      have hsum := hd.displace (Part.number?_of_datum? hp (ne_memory_of_isConstant hconst.1))
      simpa [hconst.2] using hsum
    · split at h
      · rename_i hregister
        cases h
        exact hd.setIndex (i := some p) scale hnone
          (Part.number?_of_datum? hp (ne_memory_of_isRegisterLike hregister))
      · cases h

/-- An offset adds what it stands for, as one more displacement; what is not constant is refused. -/
theorem Sums.addOffset (hd : d.Sums w st x) (h : d.addOffset p = .ok d')
    (hp : p.datum? w st = some datum) : d'.Sums w st (x + datum.weight) := by
  rw [Draft.addOffset] at h
  split at h
  · rename_i hconst
    cases h
    exact hd.displace (Part.number?_of_datum? hp (ne_memory_of_isConstant hconst))
  · cases h

/-- Adding up displacements adds up what they stand for. The numbers are added with 64 bits and what
they stand for with 32, which agrees as the low bits of a sum depend on low bits only. -/
theorem number?_foldlM_addDisplacement {rest : List Part} {first : Part} {shifts : List Word}
    (h : rest.foldlM addDisplacement first = .ok q) (hfirst : first.number? w st = some x)
    (hrest : rest.mapM (Part.number? w st) = some shifts) :
    q.number? w st = some (x + shifts.sum) := by
  induction rest generalizing first x shifts with
  | nil =>
    cases h
    cases hrest
    simpa using hfirst
  | cons p rest ih =>
    rw [List.foldlM_cons, bind_eq_ok] at h
    obtain ⟨sum, hsum, h⟩ := h
    simp only [List.mapM_cons, Option.bind_eq_bind, Option.bind_eq_some_iff] at hrest
    obtain ⟨y, hy, ys, hys, hcons⟩ := hrest
    cases hcons
    unfold addDisplacement at hsum
    split at hsum
    · -- Only numbers are added up, and taking the low bits commutes with that.
      cases hsum
      cases hfirst
      cases hy
      rw [ih h (congrArg some (Word.ofNumber_add _ _)) hys, List.sum_cons, add_assoc]
    · cases hsum

/-- What the displacements of a draft are added up to stands for their sum; without any it is
nothing, which stands for nought. -/
theorem number?_offset {o : Option Part} {shifts : List Word} (h : d.offset = .ok o)
    (hshifts : d.displacements.mapM (Part.number? w st) = some shifts) :
    o.elim (some 0) (Part.number? w st) = some shifts.sum := by
  unfold offset at h
  split at h
  · rename_i hnil
    cases h
    rw [hnil] at hshifts
    cases hshifts
    rfl
  · rename_i first rest hcons
    rw [hcons] at hshifts
    simp only [List.mapM_cons, Option.bind_eq_bind, Option.bind_eq_some_iff] at hshifts
    obtain ⟨y, hy, ys, hys, hsum⟩ := hshifts
    cases hsum
    -- The sum exists, as otherwise there would be no offset.
    cases hfold : rest.foldlM addDisplacement first with
    | error fault =>
      rw [hfold] at h
      cases h
    | ok sum =>
      rw [hfold] at h
      cases h
      rw [List.sum_cons]
      exact number?_foldlM_addDisplacement hfold hy hys

/-- **The finished address is the memory at what the draft stands for.** A draft without any
component is refused, so the address has at least one. -/
theorem Sums.finish (hd : d.Sums w st x) (h : d.finish = .ok q) :
    q.datum? w st = some (.memory x) := by
  obtain ⟨base, index, shifts, hbase, hindex, hshifts, rfl⟩ := hd
  rw [Draft.finish, bind_eq_ok] at h
  obtain ⟨o, ho, h⟩ := h
  split at h
  · cases h
  · cases h
    exact Part.datum?_memory.2 ⟨_, Address.sum?_eq_some.2
      ⟨base, index, _, hbase, hindex, number?_offset ho hshifts, rfl⟩, rfl⟩

/-- A base alone is the memory at what it stands for, be it a word or an address. An address is
taken as it is, a constant becomes the offset, and anything else the base. -/
theorem datum?_ofLoneBase (h : ofLoneBase p = .ok q) (hp : p.datum? w st = some datum) :
    q.datum? w st = some (.memory datum.weight) := by
  unfold ofLoneBase at h
  split at h
  · cases h
    obtain ⟨z, hz, rfl⟩ := Part.datum?_memory.1 hp
    exact hp
  · -- No address, so it stands for a word, and the word is where the memory is.
    rename_i hmemory
    have hnumber := Part.number?_of_datum? hp hmemory
    split at h
    · cases h
      exact Part.datum?_memory.2 ⟨_, Address.sum?_eq_some.2
        ⟨0, 0, _, rfl, rfl, hnumber, by simp⟩, rfl⟩
    · split at h
      · cases h
        exact Part.datum?_memory.2 ⟨_, Address.sum?_eq_some.2
          ⟨_, 0, 0, hnumber, rfl, rfl, by simp⟩, rfl⟩
      · cases h

end Draft

end TileSelect
