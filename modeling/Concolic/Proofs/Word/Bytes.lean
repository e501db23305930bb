import Concolic.Word
import Mathlib.Algebra.Group.Nat.Defs

/-!
# Bits and bytes of words

Extensions, byte ranges and overlays of words, described bit by bit and byte by byte.  Two words
are equal as soon as their eight bytes are, and the low bits of a word are determined by its low
bytes; everything said about memory later is said through these bytes.
-/

namespace Concolic

/-- Byte `index` of a word in little-endian order; zero from the eighth byte on. -/
def byteAt (value : Value) (index : Nat) : BitVec 8 :=
  value.extractLsb' (8 * index) 8

/-! ## Extensions as remainders -/

theorem toNat_zeroExtend (bits : Nat) (value : Value) :
    (zeroExtend bits value).toNat = value.toNat % 2 ^ bits := by
  unfold zeroExtend
  split
  · next h =>
    have : (2 : Nat) ^ 64 ≤ 2 ^ bits := Nat.pow_le_pow_right (by decide) h
    rw [Nat.mod_eq_of_lt (by omega)]
  · next h =>
    have : (2 : Nat) ^ bits ≤ 2 ^ 64 := Nat.pow_le_pow_right (by decide) (by omega)
    have := Nat.mod_lt value.toNat (Nat.two_pow_pos bits)
    rw [BitVec.toNat_setWidth, BitVec.toNat_setWidth, Nat.mod_eq_of_lt (by omega)]

theorem zeroExtend_zeroExtend (bits : Nat) (value : Value) :
    zeroExtend bits (zeroExtend bits value) = zeroExtend bits value := by
  apply BitVec.eq_of_toNat_eq
  simp [toNat_zeroExtend]

/-! ## Bits -/

theorem zeroExtend_eq_setWidth (bits : Nat) (value : Value) :
    zeroExtend bits value = (value.setWidth bits).setWidth 64 := by
  unfold zeroExtend
  split
  · next wide => rw [BitVec.setWidth_setWidth_of_le value wide, BitVec.setWidth_eq]
  · rfl

theorem signExtend_eq_signExtend {bits : Nat} (value : Value) (positive : 0 < bits)
    (narrow : bits ≤ 64) : signExtend bits value = (value.setWidth bits).signExtend 64 := by
  unfold signExtend
  split
  · next wide =>
    obtain rfl : bits = 64 := by omega
    rw [BitVec.setWidth_eq, BitVec.signExtend_eq]
  · rfl

theorem getLsbD_zeroExtend (bits : Nat) (value : Value) (i : Nat) :
    (zeroExtend bits value).getLsbD i = (decide (i < bits) && value.getLsbD i) := by
  rw [zeroExtend_eq_setWidth, BitVec.getLsbD_setWidth, BitVec.getLsbD_setWidth]
  by_cases inside : i < 64
  · simp [inside]
  · simp [inside, BitVec.getLsbD_of_ge value i (by omega)]

theorem getLsbD_byteRange (value : Value) (offset bytes i : Nat) :
    (byteRange value offset bytes).getLsbD i =
      (decide (i < 8 * bytes) && value.getLsbD (8 * offset + i)) := by
  rw [byteRange, getLsbD_zeroExtend, BitVec.getLsbD_ushiftRight]

/-- An overlay changes the bits of its field alone. -/
theorem getLsbD_overlay (base part : Value) (offset bits i : Nat) (inside : i < 64) :
    (overlay base offset bits part).getLsbD i =
      if 8 * offset ≤ i ∧ i < 8 * offset + bits then part.getLsbD (i - 8 * offset)
      else base.getLsbD i := by
  unfold overlay
  split
  · next past => rw [if_neg (by omega)]
  · have field : ((zeroExtend bits (BitVec.allOnes 64)) <<< (8 * offset)).getLsbD i =
        decide (8 * offset ≤ i ∧ i < 8 * offset + bits) := by
      rw [BitVec.getLsbD_shiftLeft, getLsbD_zeroExtend, BitVec.getLsbD_allOnes, Bool.eq_iff_iff]
      simp only [Bool.and_eq_true, Bool.not_eq_true', decide_eq_true_eq, decide_eq_false_iff_not]
      omega
    simp only [BitVec.getLsbD_or, BitVec.getLsbD_and, BitVec.getLsbD_not, field,
      BitVec.getLsbD_shiftLeft, inside, decide_true, Bool.true_and]
    by_cases within : 8 * offset ≤ i ∧ i < 8 * offset + bits
    · simp [within, show ¬i < 8 * offset by omega]
    · simp [within]

/-! ## Low bits -/

theorem setWidth_zeroExtend {bits : Nat} (value : Value) {low : Nat} (fits : low ≤ bits) :
    (zeroExtend bits value).setWidth low = value.setWidth low := by
  apply BitVec.eq_of_getLsbD_eq
  intro i below
  simp [getLsbD_zeroExtend, below, show i < bits by omega]

theorem setWidth_signExtend {bits : Nat} (value : Value) {low : Nat} (fits : low ≤ bits) :
    (signExtend bits value).setWidth low = value.setWidth low := by
  unfold signExtend
  split
  · rfl
  · apply BitVec.eq_of_getLsbD_eq
    intro i below
    simp only [BitVec.getLsbD_setWidth, BitVec.getLsbD_signExtend, below,
      show i < bits by omega, show i < 64 by omega, if_true, decide_true, Bool.true_and]

/-- Sign extension at a positive width does not change the number that the low bits denote. -/
theorem toInt_signExtend_eq_toInt {bits : Nat} (value : Value) (positive : 0 < bits)
    (narrow : bits ≤ 64) : (signExtend bits value).toInt = (value.setWidth bits).toInt := by
  rw [signExtend_eq_signExtend value positive narrow, BitVec.toInt_signExtend_of_le narrow]

theorem toNat_zeroExtend_eq_toNat (bits : Nat) (value : Value) :
    (zeroExtend bits value).toNat = (value.setWidth bits).toNat := by
  rw [toNat_zeroExtend, BitVec.toNat_setWidth]

theorem zeroExtend_eq_iff (bits : Nat) (a b : Value) :
    zeroExtend bits a = zeroExtend bits b ↔ a.setWidth bits = b.setWidth bits := by
  rw [← BitVec.toNat_inj, ← BitVec.toNat_inj, toNat_zeroExtend_eq_toNat, toNat_zeroExtend_eq_toNat]

theorem zeroExtend_congr {bits : Nat} {a b : Value} (low : a.setWidth bits = b.setWidth bits) :
    zeroExtend bits a = zeroExtend bits b :=
  (zeroExtend_eq_iff bits a b).mpr low

theorem signExtend_congr {bits : Nat} {a b : Value} (positive : 0 < bits)
    (low : a.setWidth bits = b.setWidth bits) : signExtend bits a = signExtend bits b := by
  unfold signExtend
  split
  · next wide =>
    rw [← BitVec.setWidth_eq (x := a), ← BitVec.setWidth_eq (x := b)]
    have narrowed := congrArg (BitVec.setWidth 64) low
    rwa [BitVec.setWidth_setWidth_of_le a (by omega),
      BitVec.setWidth_setWidth_of_le b (by omega)] at narrowed
  · rw [low]

/-! ## Bytes -/

theorem getLsbD_byteAt (value : Value) (index i : Nat) :
    (byteAt value index).getLsbD i = (decide (i < 8) && value.getLsbD (8 * index + i)) := by
  simp [byteAt, BitVec.getLsbD_extractLsb']

theorem getLsbD_eq_byteAt (value : Value) (i : Nat) :
    value.getLsbD i = (byteAt value (i / 8)).getLsbD (i % 8) := by
  rw [getLsbD_byteAt, decide_eq_true (by omega), Bool.true_and]
  congr 1
  omega

/-- The low bits of a word are determined by its low bytes. -/
theorem setWidth_eq_iff_byteAt (bytes : Nat) (a b : Value) :
    a.setWidth (8 * bytes) = b.setWidth (8 * bytes) ↔
      ∀ index < bytes, byteAt a index = byteAt b index := by
  constructor
  · intro low index below
    apply BitVec.eq_of_getLsbD_eq
    intro i small
    have bit := congrArg (fun word ↦ word.getLsbD (8 * index + i)) low
    simp only [BitVec.getLsbD_setWidth, show 8 * index + i < 8 * bytes by omega, decide_true,
      Bool.true_and] at bit
    rw [getLsbD_byteAt, getLsbD_byteAt, bit]
  · intro agree
    apply BitVec.eq_of_getLsbD_eq
    intro i below
    rw [BitVec.getLsbD_setWidth, BitVec.getLsbD_setWidth, getLsbD_eq_byteAt a, getLsbD_eq_byteAt b,
      agree (i / 8) (by omega)]

theorem eq_iff_byteAt (a b : Value) : a = b ↔ ∀ index < 8, byteAt a index = byteAt b index := by
  rw [← setWidth_eq_iff_byteAt 8 a b]
  simp

/-- Fields of whole bytes agree as soon as their bytes do. -/
theorem extractLsb'_eq_iff_byteAt (a b : Value) (first second bytes : Nat) :
    a.extractLsb' (8 * first) (8 * bytes) = b.extractLsb' (8 * second) (8 * bytes) ↔
      ∀ index < bytes, byteAt a (first + index) = byteAt b (second + index) := by
  constructor
  · intro same index below
    apply BitVec.eq_of_getLsbD_eq
    intro i small
    have bit := congrArg (fun word ↦ word.getLsbD (8 * index + i)) same
    simp only [BitVec.getLsbD_extractLsb', show 8 * index + i < 8 * bytes by omega, decide_true,
      Bool.true_and] at bit
    rw [getLsbD_byteAt, getLsbD_byteAt, Nat.mul_add, Nat.mul_add, Nat.add_assoc, Nat.add_assoc,
      bit]
  · intro agree
    apply BitVec.eq_of_getLsbD_eq
    intro i below
    rw [BitVec.getLsbD_extractLsb', BitVec.getLsbD_extractLsb', getLsbD_eq_byteAt a,
      getLsbD_eq_byteAt b, show (8 * first + i) / 8 = first + i / 8 by omega,
      show (8 * second + i) / 8 = second + i / 8 by omega, agree (i / 8) (by omega),
      show (8 * first + i) % 8 = (8 * second + i) % 8 by omega]

theorem extractLsb'_eq_setWidth_iff (a b : Value) (first bytes : Nat) :
    a.extractLsb' (8 * first) (8 * bytes) = b.setWidth (8 * bytes) ↔
      ∀ index < bytes, byteAt a (first + index) = byteAt b index := by
  have low : b.setWidth (8 * bytes) = b.extractLsb' (8 * 0) (8 * bytes) := by
    apply BitVec.eq_of_getLsbD_eq
    intro i below
    simp [below]
  rw [low, extractLsb'_eq_iff_byteAt]
  simp only [Nat.zero_add]

theorem byteAt_byteRange (value : Value) (offset bytes index : Nat) :
    byteAt (byteRange value offset bytes) index =
      if index < bytes then byteAt value (offset + index) else 0 := by
  apply BitVec.eq_of_getLsbD_eq
  intro i below
  rw [getLsbD_byteAt, getLsbD_byteRange]
  split
  · rw [getLsbD_byteAt, decide_eq_true (show 8 * index + i < 8 * bytes by omega)]
    simp [Nat.mul_add, Nat.add_assoc]
  · simp [show ¬8 * index + i < 8 * bytes by omega]

theorem byteAt_overlay (base part : Value) (offset bytes index : Nat) (inside : index < 8) :
    byteAt (overlay base offset (8 * bytes) part) index =
      if offset ≤ index ∧ index < offset + bytes then byteAt part (index - offset)
      else byteAt base index := by
  apply BitVec.eq_of_getLsbD_eq
  intro i below
  rw [getLsbD_byteAt, getLsbD_overlay _ _ _ _ _ (by omega)]
  by_cases within : offset ≤ index ∧ index < offset + bytes
  · rw [if_pos within, if_pos (by omega), getLsbD_byteAt,
      show 8 * index + i - 8 * offset = 8 * (index - offset) + i by omega]
  · rw [if_neg within, if_neg (by omega), getLsbD_byteAt]

/-- Byte ranges of two words agree as soon as the bytes in them do. -/
theorem byteRange_eq_iff (a b : Value) (first second bytes : Nat) :
    byteRange a first bytes = byteRange b second bytes ↔
      ∀ index < min bytes 8, byteAt a (first + index) = byteAt b (second + index) := by
  rw [eq_iff_byteAt]
  simp only [byteAt_byteRange]
  constructor
  · intro agree index below
    simpa [show index < bytes by omega] using agree index (by omega)
  · intro agree index below
    by_cases inside : index < bytes
    · simpa [inside] using agree index (by omega)
    · simp [inside]

theorem byteRange_zero (value : Value) (bytes : Nat) :
    byteRange value 0 bytes = zeroExtend (8 * bytes) value := by
  rw [byteRange, Nat.mul_zero, BitVec.ushiftRight_zero]

/-! ## Words from bytes -/

theorem byteAt_or_shiftLeft (low : BitVec 8) (high : Value) {index : Nat} (inside : index < 8) :
    byteAt (low.setWidth 64 ||| high <<< 8) index =
      if index = 0 then low else byteAt high (index - 1) := by
  apply BitVec.eq_of_getLsbD_eq
  intro i below
  rw [getLsbD_byteAt, BitVec.getLsbD_or, BitVec.getLsbD_setWidth, BitVec.getLsbD_shiftLeft,
    decide_eq_true below, decide_eq_true (show 8 * index + i < 64 by omega)]
  by_cases first : index = 0
  · subst first
    simp [below]
  · rw [if_neg first, getLsbD_byteAt, decide_eq_true below,
      decide_eq_false (show ¬8 * index + i < 8 by omega),
      BitVec.getLsbD_of_ge low _ (by omega), show 8 * index + i - 8 = 8 * (index - 1) + i by omega]
    simp

/-- The number whose first `count` bytes are given. -/
def ofBytes (bytes : Nat → BitVec 8) : Nat → Value
  | 0 => 0
  | count + 1 => (bytes 0).setWidth 64 ||| ofBytes (fun index ↦ bytes (index + 1)) count <<< 8

theorem byteAt_ofBytes (bytes : Nat → BitVec 8) (count : Nat) {index : Nat} (inside : index < 8) :
    byteAt (ofBytes bytes count) index = if index < count then bytes index else 0 := by
  induction count generalizing bytes index with
  | zero => simp [ofBytes, byteAt]
  | succ count ih =>
    rw [ofBytes, byteAt_or_shiftLeft _ _ inside]
    by_cases first : index = 0
    · simp [first]
    · have same : index - 1 < count ↔ index < count + 1 := by omega
      rw [if_neg first, ih _ (by omega), Nat.sub_add_cancel (by omega)]
      simp only [same]

/-- The low bytes of a word are a number made of them. -/
theorem byteRange_eq_ofBytes {value : Value} {bytes : Nat → BitVec 8} {count : Nat}
    (agree : ∀ index < count, index < 8 → byteAt value index = bytes index) :
    byteRange value 0 count = ofBytes bytes count := by
  rw [eq_iff_byteAt]
  intro index inside
  rw [byteAt_byteRange, byteAt_ofBytes _ _ inside, Nat.zero_add]
  split
  · next below => exact agree index below inside
  · rfl

end Concolic
