import Mathlib.Algebra.BigOperators.Intervals
import Mathlib.Data.Int.ModEq
import Mathlib.Tactic.LinearCombination
import Mathlib.Tactic.NormNum
import Mathlib.Tactic.Positivity
import Mathlib.Tactic.Ring
import TileSelect.Asm.Halves
/-!
Halves recombine.

One half of a number is a stretch of its bits, read as a signed number. In terms of integers that
is a shifted number, reduced to the remainder that lies around zero (`Half.toInt_ofNumber`), and
everything about halves is a fact about such remainders: they lie in the range of the narrower
width, they do not see the bits above the number's width, and the high half shifted back, together
with the low half taken as a remainder, is the number again. Masks, shifts and a sign extension in
64-bit words compute the same (`Half.ofWord_eq_ofNumber`).

Halving a half reads a stretch of a stretch. A path of halves that ends at eight bits therefore
picks one byte, and which one is the number that the path spells in binary, high halves as ones
(`Half.position`).

Values and temporaries are not computed with. They record which half is meant, once; after that
they have no halves, and asking again changes nothing.
-/

set_option autoImplicit false

namespace TileSelect

/-! ## Remainders of shifted numbers -/

/-- Numbers that agree in their low `shift + bits` bits agree in `bits` bits above `shift`. Taking
the high half of a number therefore does not depend on how the number is extended to a larger width.
-/
theorem ediv_modEq {x y : Int} {shift bits : Nat} (h : x ≡ y [ZMOD 2 ^ (shift + bits)]) :
    x / 2 ^ shift ≡ y / 2 ^ shift [ZMOD 2 ^ bits] := by
  obtain ⟨k, hk⟩ := h.dvd
  have hy : y = x + 2 ^ bits * k * 2 ^ shift := by
    rw [pow_add] at hk
    linear_combination hk
  have hpos : (2 : Int) ^ shift ≠ 0 := by positivity
  rw [hy, Int.add_mul_ediv_right _ _ hpos]
  exact (Int.modEq_iff_dvd.2 ⟨k, by ring⟩)

/-- A balanced remainder differs from the number by a multiple of the modulus only. -/
theorem bmod_modEq (x : Int) (bits : Nat) : x.bmod (2 ^ bits) ≡ x [ZMOD 2 ^ bits] := by
  have h : x.bmod (2 ^ bits) % ((2 ^ bits : Nat) : Int) = x % ((2 ^ bits : Nat) : Int) :=
    Int.bmod_emod
  simpa [Int.ModEq] using h

/-- Numbers that agree in their low bits have the same balanced remainder. -/
theorem bmod_of_modEq {x y : Int} {bits : Nat} (h : x ≡ y [ZMOD 2 ^ bits]) :
    x.bmod (2 ^ bits) = y.bmod (2 ^ bits) := by
  have hmod : x % ((2 ^ bits : Nat) : Int) = y % ((2 ^ bits : Nat) : Int) := by
    simpa [Int.ModEq] using h
  rw [← Int.emod_bmod x, hmod, Int.emod_bmod]

/-- The numbers that a signed word of so many bits can hold. -/
def InSignedRange (bits : Nat) (x : Int) : Prop := -2 ^ (bits - 1) ≤ x ∧ x < 2 ^ (bits - 1)

/-- **A balanced remainder is a signed word**: it lies in the range of the width, with the one
number more on the negative side that a signed word has. -/
theorem inSignedRange_bmod (x : Int) {bits : Nat} (h : 0 < bits) :
    InSignedRange bits (x.bmod (2 ^ bits)) := by
  obtain ⟨k, rfl⟩ : ∃ k, bits = k + 1 := ⟨bits - 1, by omega⟩
  have hpos : 0 < 2 ^ (k + 1) := by positivity
  have hlow := @Int.le_bmod x (2 ^ (k + 1)) hpos
  have hhigh := @Int.bmod_lt x (2 ^ (k + 1)) hpos
  have hcast : ((2 ^ (k + 1) : Nat) : Int) = 2 * 2 ^ k := by
    push_cast
    ring
  rw [hcast] at hlow hhigh
  rw [InSignedRange, Nat.add_sub_cancel]
  constructor <;> omega

/-- The bits of a word, read without sign, are those of the number that it holds. -/
theorem toNat_modEq (v : Int64) : (v.toBitVec.toNat : Int) ≡ v.toInt [ZMOD 2 ^ 64] := by
  rw [← Int64.toInt_toBitVec, BitVec.toInt_eq_toNat_bmod]
  exact (bmod_modEq _ 64).symm

/-! ## Halves of numbers -/

namespace Half

/-- A half ends where the width does, at the latest. -/
theorem start_add_le (half : Half) (bits : Nat) : half.start bits + bits ≤ 2 * bits := by
  cases half
  · simp only [start]
    omega
  · simp only [start]
    omega

/-- **A half is a balanced remainder** of the number, shifted to where the half starts. From here on
no proof about halves looks at bits again. -/
theorem toInt_ofNumber (half : Half) {narrow : ValueType} (h : 2 * narrow.bits ≤ 64) (v : Int64) :
    (half.ofNumber narrow v).toInt
      = (v.toInt / 2 ^ half.start narrow.bits).bmod (2 ^ narrow.bits) := by
  have hfits := (half.start_add_le narrow.bits).trans h
  have hlow : (v.toBitVec.toNat : Int)
      ≡ v.toInt [ZMOD 2 ^ (half.start narrow.bits + narrow.bits)] :=
    (toNat_modEq v).of_dvd (pow_dvd_pow 2 hfits)
  have hstretch : ((v.toBitVec.extractLsb' (half.start narrow.bits) narrow.bits).toInt)
      = (v.toInt / 2 ^ half.start narrow.bits).bmod (2 ^ narrow.bits) := by
    rw [BitVec.toInt_extractLsb', Nat.shiftRight_eq_div_pow]
    push_cast
    exact bmod_of_modEq (ediv_modEq hlow)
  have hpos : 0 < narrow.bits := by cases narrow <;> decide
  obtain ⟨hge, hlt⟩ := inSignedRange_bmod (v.toInt / 2 ^ half.start narrow.bits) hpos
  have hbound : (2 : Int) ^ (narrow.bits - 1) ≤ 2 ^ 63 :=
    pow_le_pow_right₀ (by norm_num) (by omega)
  rw [ofNumber, hstretch, Int64.toInt_ofInt]
  -- A narrower number is not changed by being held in a word.
  apply Int.bmod_eq_of_le
  · norm_num [Int64.size]
    omega
  · norm_num [Int64.size]
    omega

theorem inSignedRange_ofNumber (half : Half) {narrow : ValueType} (h : 2 * narrow.bits ≤ 64)
    (v : Int64) : InSignedRange narrow.bits (half.ofNumber narrow v).toInt := by
  rw [toInt_ofNumber half h]
  exact inSignedRange_bmod _ (by cases narrow <;> decide)

/-- Numbers that agree in as many bits as both halves have are halved alike. -/
theorem ofNumber_congr (half : Half) {narrow : ValueType} (h : 2 * narrow.bits ≤ 64)
    {v w : Int64} (hvw : w.toInt ≡ v.toInt [ZMOD 2 ^ (2 * narrow.bits)]) :
    half.ofNumber narrow w = half.ofNumber narrow v := by
  rw [← Int64.toInt_inj, toInt_ofNumber half h, toInt_ofNumber half h]
  apply bmod_of_modEq
  apply ediv_modEq
  exact hvw.of_dvd (pow_dvd_pow 2 (half.start_add_le narrow.bits))

/-- **The halves of a number make up the number.** The high half stands for a multiple of the
narrower width's range, so its sign does not matter; the low half is taken as a remainder without
sign. -/
theorem recombine {narrow : ValueType} (h : 2 * narrow.bits ≤ 64) (v : Int64) :
    (high.ofNumber narrow v).toInt * 2 ^ narrow.bits
        + (low.ofNumber narrow v).toInt % 2 ^ narrow.bits
      ≡ v.toInt [ZMOD 2 ^ (2 * narrow.bits)] := by
  -- The low half starts at bit zero and agrees with the number in all bits that it has.
  have hlow : (low.ofNumber narrow v).toInt % 2 ^ narrow.bits
      = v.toInt % 2 ^ narrow.bits := by
    have hmod := bmod_modEq (v.toInt / 2 ^ low.start narrow.bits) narrow.bits
    rw [← toInt_ofNumber low h, start, pow_zero, Int.ediv_one] at hmod
    exact hmod
  -- The high half agrees with the quotient, and shifting it back shifts the modulus along.
  have hhigh : (high.ofNumber narrow v).toInt * 2 ^ narrow.bits
      ≡ v.toInt / 2 ^ narrow.bits * 2 ^ narrow.bits [ZMOD 2 ^ narrow.bits * 2 ^ narrow.bits] := by
    have hmod := bmod_modEq (v.toInt / 2 ^ high.start narrow.bits) narrow.bits
    rw [← toInt_ofNumber high h] at hmod
    exact hmod.mul_right'
  have hsplit := Int.ediv_mul_add_emod v.toInt (2 ^ narrow.bits)
  rw [hlow, two_mul, pow_add]
  calc (high.ofNumber narrow v).toInt * 2 ^ narrow.bits + v.toInt % 2 ^ narrow.bits
      ≡ v.toInt / 2 ^ narrow.bits * 2 ^ narrow.bits + v.toInt % 2 ^ narrow.bits
        [ZMOD 2 ^ narrow.bits * 2 ^ narrow.bits] := hhigh.add_right _
    _ = v.toInt := hsplit

end Half

/-! ## Halves in words -/

/-- A width that has halves is at most a machine word of 64 bits. -/
theorem ValueType.two_mul_bits_le {ty narrow : ValueType} (h : ty.half = some narrow) :
    2 * narrow.bits ≤ 64 := by
  rw [← bits_of_half h]
  cases ty <;> decide

/-- The low bits of a word, read as a signed number: they are moved to the top of the word and
back, which copies their sign. -/
def signExtend (raw : UInt64) (bits : Nat) : Int64 :=
  (raw <<< UInt64.ofNat (64 - bits)).toInt64 >>> Int64.ofNat (64 - bits)

/-- A half as it is computed in words: the bits of the width are kept, the half is moved to the
low end, its bits are kept, and their sign is extended. -/
def Half.ofWord (half : Half) (ty narrow : ValueType) (v : Int64) : Int64 :=
  let word := v.toUInt64 &&& ty.mask
  signExtend ((word >>> UInt64.ofNat (half.start narrow.bits)) &&& narrow.mask) narrow.bits

/-- Shifting a number to the left and taking the balanced remainder of the wider word is shifting
its balanced remainder, because the modulus is shifted by as much. -/
theorem mul_pow_bmod (x : Int) (shift : Nat) {bits : Nat} (h : 0 < bits) :
    (x * 2 ^ shift).bmod (2 ^ (bits + shift)) = x.bmod (2 ^ bits) * 2 ^ shift := by
  obtain ⟨k, rfl⟩ : ∃ k, bits = k + 1 := ⟨bits - 1, by omega⟩
  have hmod : x.bmod (2 ^ (k + 1)) * 2 ^ shift ≡ x * 2 ^ shift [ZMOD 2 ^ (k + 1 + shift)] := by
    rw [pow_add]
    exact (bmod_modEq x (k + 1)).mul_right'
  rw [← bmod_of_modEq hmod]
  -- The moved remainder still lies around zero, so reducing it again changes nothing.
  obtain ⟨hge, hlt⟩ := inSignedRange_bmod x h
  rw [Nat.add_sub_cancel] at hge hlt
  have hpos : (0 : Int) < 2 ^ shift := by positivity
  have hge' : -(2 ^ k * 2 ^ shift) ≤ x.bmod (2 ^ (k + 1)) * 2 ^ shift := by
    rw [← neg_mul]
    exact mul_le_mul_of_nonneg_right hge hpos.le
  have hlt' : x.bmod (2 ^ (k + 1)) * 2 ^ shift < 2 ^ k * 2 ^ shift :=
    mul_lt_mul_of_pos_right hlt hpos
  have hcast : ((2 ^ (k + 1 + shift) : Nat) : Int) = 2 * (2 ^ k * 2 ^ shift) := by
    push_cast
    ring
  apply Int.bmod_eq_of_le
  · rw [hcast]
    omega
  · rw [hcast]
    omega

/-- **Moving bits to the top and back extends the sign.** The move up drops what is above the width,
and the arithmetic move down copies the bit that is then on top. -/
theorem toInt_signExtend (raw : UInt64) (ty : ValueType) :
    (signExtend raw ty.bits).toInt = (raw.toNat : Int).bmod (2 ^ ty.bits) := by
  -- The widths are few, so the shifts by a width are evaluated one by one.
  have hright (a : Int64) : (a >>> Int64.ofNat (64 - ty.bits)).toBitVec
      = a.toBitVec.sshiftRight (64 - ty.bits) := by
    cases ty <;> simp [ValueType.bits]
  have hleft : (raw <<< UInt64.ofNat (64 - ty.bits)).toBitVec
      = raw.toBitVec <<< (64 - ty.bits) := by
    cases ty <;> simp [ValueType.bits]
  have hpos : 0 < ty.bits := by cases ty <;> decide
  have hle : ty.bits ≤ 64 := by cases ty <;> decide
  have hwidth : ty.bits + (64 - ty.bits) = 64 := by omega
  -- What was moved to the top is a multiple of the distance, so nothing is lost on the way down.
  have hmoved := mul_pow_bmod raw.toNat (64 - ty.bits) hpos
  rw [hwidth] at hmoved
  rw [signExtend, ← Int64.toInt_toBitVec, hright, UInt64.toBitVec_toInt64, hleft,
    BitVec.toInt_sshiftRight, BitVec.toInt_shiftLeft, Nat.shiftLeft_eq, Int.shiftRight_eq_div_pow,
    UInt64.toNat_toBitVec, Nat.cast_mul, Nat.cast_pow, Nat.cast_ofNat, hmoved]
  exact Int.mul_ediv_cancel _ (by positivity)

/-- Masking is taking the remainder: a mask has ones in the low bits and nothing else. -/
theorem toNat_and_mask (word : UInt64) (ty : ValueType) :
    (word &&& ty.mask).toNat = word.toNat % 2 ^ ty.bits := by
  have hmask : ty.mask.toNat = 2 ^ ty.bits - 1 := by cases ty <;> decide
  rw [UInt64.toNat_and, hmask, Nat.and_two_pow_sub_one_eq_mod]

/-- **Masks and shifts compute the half**: masking first to the width and then to the half loses
nothing that the half has. -/
theorem Half.ofWord_eq_ofNumber (half : Half) {ty narrow : ValueType} (h : ty.half = some narrow)
    (v : Int64) : half.ofWord ty narrow v = half.ofNumber narrow v := by
  have hbits := ValueType.bits_of_half h
  have hle := ValueType.two_mul_bits_le h
  have hfits := half.start_add_le narrow.bits
  have hshift (word : UInt64) : (word >>> UInt64.ofNat (half.start narrow.bits)).toNat
      = word.toNat / 2 ^ half.start narrow.bits := by
    cases ty <;> cases h <;> cases half <;>
      simp [start, ValueType.bits, Nat.shiftRight_eq_div_pow]
  -- Masked to its width, the number still agrees with itself in all the bits of both halves.
  have hword : v.toInt ≡ ((v.toUInt64.toNat % 2 ^ ty.bits : Nat) : Int)
      [ZMOD 2 ^ (half.start narrow.bits + narrow.bits)] := by
    have hwhole := (toNat_modEq v).symm
    rw [Int64.toNat_toBitVec] at hwhole
    rw [Int.natCast_mod, Nat.cast_pow, Nat.cast_ofNat, hbits]
    exact (hwhole.of_dvd (pow_dvd_pow 2 (by omega))).trans
      ((Int.mod_modEq _ _).symm.of_dvd (pow_dvd_pow 2 hfits))
  rw [← Int64.toInt_inj, toInt_ofNumber half hle, ofWord, toInt_signExtend, toNat_and_mask,
    hshift, toNat_and_mask]
  apply bmod_of_modEq
  rw [Int.natCast_mod, Int.natCast_div, Nat.cast_pow, Nat.cast_pow, Nat.cast_ofNat]
  exact (Int.mod_modEq _ _).trans (ediv_modEq hword).symm

/-! ## Bytes -/

namespace Half

/-- Which of the narrow stretches of a number a path of halves leads to, counted from the low
end. -/
def position : List Half → Nat
  | [] => 0
  | half :: rest => half.start (2 ^ rest.length) + position rest

/-- A path of halves leads to one of as many stretches as there are paths of its length: a high half
adds half of them, and the rest of the path stays below that. -/
theorem position_lt (path : List Half) : position path < 2 ^ path.length := by
  induction path with
  | nil => simp [position]
  | cons half rest ih =>
    rw [position, List.length_cons, pow_succ]
    cases half
    · simp only [start]
      omega
    · simp only [start]
      omega

/-- Every stretch is led to: the first step says in which half it lies, and the other steps count on
from the start of that half. -/
theorem exists_position (n k : Nat) (h : k < 2 ^ n) :
    ∃ path : List Half, path.length = n ∧ position path = k := by
  induction n generalizing k with
  | zero => exact ⟨[], rfl, by rw [pow_zero] at h; rw [position]; omega⟩
  | succ n ih =>
    rw [pow_succ] at h
    by_cases hk : k < 2 ^ n
    · obtain ⟨path, hlength, hposition⟩ := ih k hk
      exact ⟨low :: path, by rw [List.length_cons, hlength], by simp [position, start, hposition]⟩
    · obtain ⟨path, hlength, hposition⟩ := ih (k - 2 ^ n) (by omega)
      refine ⟨high :: path, by rw [List.length_cons, hlength], ?_⟩
      simp only [position, start, hlength, hposition]
      omega

theorem start_mul (half : Half) (a n : Nat) : half.start (a * n) = a * half.start n := by
  cases half
  · rfl
  · rfl

end Half

/-- A width of more than one byte can be halved, and its half is a width as well. The recursion
along a path of halves goes by the exponent. -/
theorem ValueType.exists_half {ty : ValueType} {n : Nat} (h : ty.bits = 8 * 2 ^ (n + 1)) :
    ∃ narrow : ValueType, ty.half = some narrow ∧ narrow.bits = 8 * 2 ^ n := by
  rw [pow_succ] at h
  have hpos : 0 < 2 ^ n := by positivity
  generalize 2 ^ n = k at h hpos ⊢
  cases ty with
  | i1 | i8 =>
    simp only [bits] at h
    omega
  | i16 => exact ⟨.i8, rfl, by simp only [bits] at h ⊢; omega⟩
  | i32 => exact ⟨.i16, rfl, by simp only [bits] at h ⊢; omega⟩
  | i64 => exact ⟨.i32, rfl, by simp only [bits] at h ⊢; omega⟩

/-- The byte of a number at a position counted from the low end, read as a signed number. -/
def byteAt (v : Int64) (k : Nat) : Int64 := Int64.ofInt ((v.toInt / 2 ^ (8 * k)).bmod (2 ^ 8))

/-- A byte read as a signed number is a balanced remainder too, of the number shifted to the byte.
In this form bytes can be compared with halves, which are balanced remainders themselves. -/
theorem toInt_byteAt (v : Int64) (k : Nat) :
    (byteAt v k).toInt = (v.toInt / 2 ^ (8 * k)).bmod (2 ^ 8) := by
  obtain ⟨hge, hlt⟩ := @inSignedRange_bmod (v.toInt / 2 ^ (8 * k)) 8 (by norm_num)
  rw [byteAt, Int64.toInt_ofInt]
  apply Int.bmod_eq_of_le
  · norm_num [Int64.size] at hge ⊢
    omega
  · norm_num [Int64.size] at hlt ⊢
    omega

/-- Bytes, taken as remainders, are the digits of a number: each of them at its place, they add up
to the remainder for as many bytes. -/
theorem sum_bytes (x : Int) (n : Nat) :
    ∑ k ∈ Finset.range n, x / 2 ^ (8 * k) % 2 ^ 8 * 2 ^ (8 * k) = x % 2 ^ (8 * n) := by
  induction n with
  | zero => simp
  | succ n ih =>
    have hdigit := Int.emod_add_mul_ediv x (2 ^ (8 * n))
    have hnext := Int.emod_add_mul_ediv (x / 2 ^ (8 * n)) (2 ^ 8)
    have hwhole := Int.emod_add_mul_ediv x (2 ^ (8 * (n + 1)))
    have hquotient : x / 2 ^ (8 * n) / 2 ^ 8 = x / 2 ^ (8 * (n + 1)) := by
      rw [Int.ediv_ediv_of_nonneg (by positivity), ← pow_add]
      rfl
    rw [hquotient] at hnext
    rw [Finset.sum_range_succ, ih]
    have hpow : (2 : Int) ^ (8 * (n + 1)) = 2 ^ (8 * n) * 2 ^ 8 := by
      rw [← pow_add]
      rfl
    rw [hpow] at hwhole hnext ⊢
    -- Three divisions with remainder, of which the last is what the sum has to come to.
    linear_combination hdigit + 2 ^ (8 * n) * hnext - hwhole

/-- A byte depends only on the bits up to its own end. -/
theorem byteAt_congr {v w : Int64} {k bits : Nat} (h : 8 * k + 8 ≤ bits)
    (hvw : w.toInt ≡ v.toInt [ZMOD 2 ^ bits]) : byteAt w k = byteAt v k := by
  rw [byteAt, byteAt]
  congr 1
  apply bmod_of_modEq
  apply ediv_modEq
  exact hvw.of_dvd (pow_dvd_pow 2 h)

/-- A byte of a half is a byte of the whole. In the low half it has the same position, in the high
half one that is further up by the bytes of the low half. -/
theorem byteAt_ofNumber (half : Half) {narrow : ValueType} (h : 2 * narrow.bits ≤ 64) (v : Int64)
    {k : Nat} (hk : 8 * k + 8 ≤ narrow.bits) {n : Nat} (hn : narrow.bits = 8 * n) :
    byteAt (half.ofNumber narrow v) k = byteAt v (half.start n + k) := by
  have hhalf : (half.ofNumber narrow v).toInt
      ≡ v.toInt / 2 ^ half.start narrow.bits [ZMOD 2 ^ (8 * k + 8)] := by
    rw [Half.toInt_ofNumber half h]
    exact (bmod_modEq _ _).of_dvd (pow_dvd_pow 2 hk)
  rw [byteAt, byteAt]
  congr 1
  apply bmod_of_modEq
  calc (half.ofNumber narrow v).toInt / 2 ^ (8 * k)
      ≡ v.toInt / 2 ^ half.start narrow.bits / 2 ^ (8 * k) [ZMOD 2 ^ 8] := ediv_modEq hhalf
    _ = v.toInt / 2 ^ (8 * (half.start n + k)) := by
      rw [Int.ediv_ediv_of_nonneg (by positivity), ← pow_add, hn, Half.start_mul, Nat.mul_add]

/-! ## Slices of numbers -/

namespace Part

/-- A number with a width that splits has both halves, and they are numbers of the narrower width.
-/
theorem slice?_imm (half : Half) {ty narrow : ValueType} (h : ty.half = some narrow) (v : Int64) :
    (imm v (some ty)).slice? half = some (.imm (half.ofNumber narrow v) (some narrow)) := by
  rw [slice?, h]
  rfl

/-- The part that a path of halves leads to, the widest half first. -/
def slices? : List Half → Part → Option Part
  | [], p => some p
  | half :: rest, p => (p.slice? half).bind (slices? rest)

/-- **A path of halves down to eight bits leads to a byte**, and its position is what the path
spells in binary. The induction is on the path, with the number left open: the next half is a number
as well. -/
theorem slices?_imm (path : List Half) {ty : ValueType} {v : Int64}
    (h : ty.bits = 8 * 2 ^ path.length) (hv : path = [] → InSignedRange 8 v.toInt) :
    (imm v (some ty)).slices? path = some (.imm (byteAt v (Half.position path)) (some .i8)) := by
  induction path generalizing ty v with
  | nil =>
    have hty : ty = .i8 := by
      cases ty <;> simp [ValueType.bits] at h ⊢
    have hbyte : byteAt v 0 = v := by
      obtain ⟨hge, hlt⟩ := hv rfl
      rw [← Int64.toInt_inj, toInt_byteAt, Nat.mul_zero, pow_zero, Int.ediv_one]
      apply Int.bmod_eq_of_le
      · norm_num at hge ⊢
        omega
      · norm_num at hlt ⊢
        omega
    rw [slices?, Half.position, hbyte, hty]
  | cons half rest ih =>
    obtain ⟨narrow, hnarrow, hbits⟩ := ValueType.exists_half (n := rest.length) h
    have hle := ValueType.two_mul_bits_le hnarrow
    have hlt := Half.position_lt rest
    -- The first half is a number of the narrower width, whatever the number was.
    have hrange : rest = [] → InSignedRange 8 (half.ofNumber narrow v).toInt := by
      intro hnil
      have hrange := Half.inSignedRange_ofNumber half hle v
      rw [hbits, hnil] at hrange
      exact hrange
    rw [slices?, slice?_imm half hnarrow, Option.bind_some, ih hbits hrange, Half.position,
      byteAt_ofNumber half hle v (by omega) hbits]

/-- A number of width `ty` and its two halves, each of width `narrow`. -/
structure SplitsInto (v : Int64) (ty narrow : ValueType) (low high : Int64) : Prop where
  half : ty.half = some narrow
  slice_low : (imm v (some ty)).slice? .low = some (.imm low (some narrow))
  slice_high : (imm v (some ty)).slice? .high = some (.imm high (some narrow))
  low_range : InSignedRange narrow.bits low.toInt
  high_range : InSignedRange narrow.bits high.toInt
  whole : high.toInt * 2 ^ narrow.bits + low.toInt % 2 ^ narrow.bits
    ≡ v.toInt [ZMOD 2 ^ (2 * narrow.bits)]
  /-- The bits above the width do not matter. -/
  of_modEq : ∀ (half : Half) (w : Int64), w.toInt ≡ v.toInt [ZMOD 2 ^ (2 * narrow.bits)] →
    (imm w (some ty)).slice? half = (imm v (some ty)).slice? half
  /-- Masks, shifts and sign extension give these halves. -/
  words : Half.low.ofWord ty narrow v = low ∧ Half.high.ofWord ty narrow v = high

/-- Halving a number gives the two halves that the number has as an integer: the low half is its
balanced remainder, and the high half what is left when that many bits are shifted out. -/
theorem splitsInto_ofNumber (v : Int64) {ty narrow : ValueType} (h : ty.half = some narrow) :
    SplitsInto v ty narrow (Half.low.ofNumber narrow v) (Half.high.ofNumber narrow v) where
  half := h
  slice_low := slice?_imm .low h v
  slice_high := slice?_imm .high h v
  low_range := Half.low.inSignedRange_ofNumber (ValueType.two_mul_bits_le h) v
  high_range := Half.high.inSignedRange_ofNumber (ValueType.two_mul_bits_le h) v
  whole := Half.recombine (ValueType.two_mul_bits_le h) v
  of_modEq := by
    intro half w hw
    rw [slice?_imm half h, slice?_imm half h,
      half.ofNumber_congr (ValueType.two_mul_bits_le h) hw]
  words := ⟨Half.low.ofWord_eq_ofNumber h v, Half.high.ofWord_eq_ofNumber h v⟩

/-- The bytes of a number of width `ty`, to which paths of `depth` halves lead. -/
structure BytesOf (v : Int64) (ty : ValueType) (depth : Nat) (bytes : Nat → Int64) : Prop where
  slices : ∀ path : List Half, path.length = depth →
    (imm v (some ty)).slices? path = some (.imm (bytes (Half.position path)) (some .i8))
  /-- The positions of the paths are those of the bytes. -/
  positions : ∀ k, k < 2 ^ depth ↔ ∃ path : List Half, path.length = depth ∧ Half.position path = k
  range : ∀ k, InSignedRange 8 (bytes k).toInt
  whole : ∑ k ∈ Finset.range (2 ^ depth), (bytes k).toInt % 2 ^ 8 * 2 ^ (8 * k)
    ≡ v.toInt [ZMOD 2 ^ ty.bits]
  of_modEq : ∀ w : Int64, w.toInt ≡ v.toInt [ZMOD 2 ^ ty.bits] →
    ∀ path : List Half, path.length = depth →
      (imm w (some ty)).slices? path = (imm v (some ty)).slices? path

theorem bytesOf_byteAt (v : Int64) {ty : ValueType} {depth : Nat} (hdepth : 0 < depth)
    (h : ty.bits = 8 * 2 ^ depth) : BytesOf v ty depth (byteAt v) := by
  have hslices (w : Int64) (path : List Half) (hlength : path.length = depth) :
      (imm w (some ty)).slices? path
        = some (.imm (byteAt w (Half.position path)) (some .i8)) := by
    apply slices?_imm path (by rw [hlength, h])
    rintro rfl
    rw [List.length_nil] at hlength
    omega
  constructor
  case slices => exact hslices v
  case positions =>
    intro k
    constructor
    · exact Half.exists_position depth k
    · rintro ⟨path, rfl, rfl⟩
      exact Half.position_lt path
  case range =>
    intro k
    rw [toInt_byteAt]
    exact inSignedRange_bmod _ (by norm_num)
  case whole =>
    have hbyte (k : Nat) : (byteAt v k).toInt % 2 ^ 8 = v.toInt / 2 ^ (8 * k) % 2 ^ 8 := by
      rw [toInt_byteAt]
      exact bmod_modEq _ 8
    simp only [hbyte]
    rw [sum_bytes, h]
    exact Int.mod_modEq _ _
  case of_modEq =>
    intro w hw path hlength
    have hlt := Half.position_lt path
    rw [hlength] at hlt
    rw [hslices w path hlength, hslices v path hlength, byteAt_congr (by omega) hw]

/-! ## Slices of values and temporaries -/

/-- Each half is asked for in turn; where there is none, the part is kept as it is. -/
def sliceEach (halves : List Half) (p : Part) : Part :=
  halves.foldl (fun p half => (p.slice? half).getD p) p

/-- What is built by `make` records one half at most: the first that is asked for. -/
structure RecordsOnce (make : Nat → ValueType → Option Half → Part) : Prop where
  first : ∀ (id : Nat) (ty : ValueType) (half : Half),
    (make id ty none).slice? half = ty.half.map fun narrow => make id narrow (some half)
  again : ∀ (id : Nat) (ty : ValueType) (taken half : Half),
    (make id ty (some taken)).slice? half = none
  sequence : ∀ (id : Nat) (ty : ValueType) (halves : List Half),
    (make id ty none).sliceEach halves
      = match halves, ty.half with
        | half :: _, some narrow => make id narrow (some half)
        | _, _ => make id ty none
  kept : ∀ (id : Nat) (ty : ValueType) (taken : Half) (halves : List Half),
    (make id ty (some taken)).sliceEach halves = make id ty (some taken)

/-- A part without halves stays as it is. -/
theorem sliceEach_of_none {p : Part} (h : ∀ half, p.slice? half = none) (halves : List Half) :
    p.sliceEach halves = p := by
  induction halves with
  | nil => rfl
  | cons half rest ih =>
    rw [sliceEach, List.foldl_cons, h half]
    exact ih

theorem sliceEach_cons (p : Part) (half : Half) (rest : List Half) :
    p.sliceEach (half :: rest) = ((p.slice? half).getD p).sliceEach rest := rfl

theorem recordsOnce_of_slice? {make : Nat → ValueType → Option Half → Part}
    (hfirst : ∀ id ty half,
      (make id ty none).slice? half = ty.half.map fun narrow => make id narrow (some half))
    (hagain : ∀ id ty taken half, (make id ty (some taken)).slice? half = none) :
    RecordsOnce make where
  first := hfirst
  again := hagain
  sequence := by
    intro id ty halves
    cases halves with
    | nil => rfl
    | cons half rest =>
      rw [sliceEach_cons, hfirst]
      cases hty : ty.half with
      | none =>
        have hnone (half' : Half) : (make id ty none).slice? half' = none := by
          rw [hfirst, hty]
          rfl
        exact sliceEach_of_none hnone rest
      | some narrow => exact sliceEach_of_none (hagain id narrow half) rest
  kept := fun id ty taken => sliceEach_of_none (hagain id ty taken)

/-- **Halves recombine.** A number of a width that splits has both halves. They are numbers of the
narrower width, they make up the number, and they depend on no more than its bits. Halving on picks
the bytes in the same way. Values and temporaries record the first half that is asked for, and have
none after that. -/
theorem halves_recombine (v : Int64) {ty : ValueType} (h : ty ∈ [ValueType.i16, .i32, .i64]) :
    (∃ narrow low high, SplitsInto v ty narrow low high) ∧
      (∃ depth bytes, 0 < depth ∧ ty.bits = 8 * 2 ^ depth ∧ BytesOf v ty depth bytes) ∧
      RecordsOnce .value ∧ RecordsOnce .temp := by
  -- The widths that split are two, four and eight bytes wide, so halving ends at bytes after one,
  -- two or three steps.
  obtain ⟨narrow, depth, hnarrow, hdepth, hbits⟩ :
      ∃ narrow depth, ty.half = some narrow ∧ 0 < depth ∧ ty.bits = 8 * 2 ^ depth := by
    simp only [List.mem_cons, List.not_mem_nil, or_false] at h
    rcases h with rfl | rfl | rfl
    · exact ⟨.i8, 1, rfl, by decide, rfl⟩
    · exact ⟨.i16, 2, rfl, by decide, rfl⟩
    · exact ⟨.i32, 3, rfl, by decide, rfl⟩
  refine ⟨⟨narrow, _, _, splitsInto_ofNumber v hnarrow⟩,
    ⟨depth, byteAt v, hdepth, hbits, bytesOf_byteAt v hdepth hbits⟩, ?_, ?_⟩
  · exact recordsOnce_of_slice? (fun _ _ _ => rfl) (fun _ _ _ _ => rfl)
  · exact recordsOnce_of_slice? (fun _ _ _ => rfl) (fun _ _ _ _ => rfl)

/-- Low bits that read as one above high bits that read as minus one. -/
theorem halves_recombine_mixed_signs :
    (∃ narrow low high, SplitsInto (-4294967295) .i64 narrow low high) ∧
      (∃ depth bytes, 0 < depth ∧ ValueType.i64.bits = 8 * 2 ^ depth ∧
        BytesOf (-4294967295) .i64 depth bytes) ∧
      RecordsOnce .value ∧ RecordsOnce .temp :=
  @halves_recombine (-4294967295) .i64 (by decide)

end Part

end TileSelect
