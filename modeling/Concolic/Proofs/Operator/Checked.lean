import Concolic.Proofs.CType.Conversion

/-!
# Operators with checked arithmetic

A machine extends words by masks and shifts, and it stops at a division by zero, at a shift by the
width of a word and at an unsigned difference below zero.  Binary operators, comparisons and pointer
arithmetic made of instructions that stop have a result on all words, the one that they have without
checks: the tests in front of an instruction keep its operands away from the cases in which it
stops.
-/

namespace Concolic

/-! ## Instructions -/

/-- The result of an instruction on operands that it accepts. -/
def result? (accepted : Prop) [Decidable accepted] (result : Value) : Option Value :=
  if accepted then some result else none

theorem result?_eq {accepted : Prop} [Decidable accepted] (holds : accepted) (result : Value) :
    result? accepted result = some result :=
  if_pos holds

def subtract? (lhs rhs : Value) : Option Value :=
  result? (rhs.toNat ≤ lhs.toNat) (lhs - rhs)

def shiftLeft? (value : Value) (amount : Nat) : Option Value :=
  result? (amount < 64) (value <<< amount)

def shiftRight? (value : Value) (amount : Nat) : Option Value :=
  result? (amount < 64) (value >>> amount)

def shiftRightSigned? (value : Value) (amount : Nat) : Option Value :=
  result? (amount < 64) (value.sshiftRight amount)

def divide? (lhs rhs : Value) : Option Value :=
  result? (rhs ≠ 0) (lhs / rhs)

/-- The quotient of the least number by -1 wraps around. -/
def divideSigned? (lhs rhs : Value) : Option Value :=
  result? (rhs ≠ 0) (lhs.sdiv rhs)

def remainder? (lhs rhs : Value) : Option Value :=
  result? (rhs ≠ 0) (lhs % rhs)

def remainderSigned? (lhs rhs : Value) : Option Value :=
  result? (rhs ≠ 0) (lhs.srem rhs)

/-! ## Extension by masks and shifts -/

/-- A word of `bits` ones, as many as there is room for. -/
def mask? (bits : Nat) : Option Value :=
  if 64 ≤ bits then some (BitVec.allOnes 64)
  else do
    let power ← shiftLeft? 1 bits
    subtract? power 1

def zeroExtend? (bits : Nat) (value : Value) : Option Value := do
  let mask ← mask? bits
  return value &&& mask

def signExtend? (bits : Nat) (value : Value) : Option Value :=
  if bits = 0 ∨ 64 ≤ bits then some value
  else do
    let raised ← shiftLeft? value (64 - bits)
    shiftRightSigned? raised (64 - bits)

theorem toNat_one_shiftLeft {bits : Nat} (narrow : bits < 64) :
    ((1 : Value) <<< bits).toNat = 2 ^ bits := by
  have fits : 2 ^ bits < 2 ^ 64 := Nat.pow_lt_pow_right (by decide) narrow
  rw [BitVec.toNat_shiftLeft, Nat.shiftLeft_eq]
  simpa using Nat.mod_eq_of_lt fits

theorem mask?_eq (bits : Nat) :
    mask? bits = some (BitVec.ofNat 64 (2 ^ min bits 64 - 1)) := by
  unfold mask?
  split
  · next wide =>
    rw [Nat.min_eq_right wide]
    rfl
  · next narrow =>
    have power := toNat_one_shiftLeft (Nat.lt_of_not_le narrow)
    have least : (1 : Value).toNat ≤ ((1 : Value) <<< bits).toNat := by
      rw [power]
      exact Nat.one_le_two_pow
    have raised : shiftLeft? 1 bits = some ((1 : Value) <<< bits) := result?_eq (by omega) _
    have lowered : subtract? ((1 : Value) <<< bits) 1 = some ((1 : Value) <<< bits - 1) :=
      result?_eq least _
    rw [raised, Option.bind_eq_bind, Option.bind_some, lowered, Nat.min_eq_left (by omega)]
    refine congrArg some (BitVec.eq_of_toNat_eq ?_)
    have fits := ((1 : Value) <<< bits).isLt
    rw [power] at fits
    rw [BitVec.toNat_sub_of_le (BitVec.le_def.mpr least), power, BitVec.toNat_ofNat,
      Nat.mod_eq_of_lt (Nat.lt_of_le_of_lt (Nat.sub_le _ _) fits)]
    rfl

theorem zeroExtend?_eq (bits : Nat) (value : Value) :
    zeroExtend? bits value = some (zeroExtend bits value) := by
  rw [zeroExtend?, mask?_eq]
  refine congrArg some (BitVec.eq_of_toNat_eq ?_)
  have room : 2 ^ min bits 64 ≤ 2 ^ 64 := Nat.pow_le_pow_right (by decide) (Nat.min_le_right _ _)
  have positive := Nat.two_pow_pos (min bits 64)
  rw [BitVec.toNat_and, BitVec.toNat_ofNat, Nat.mod_eq_of_lt (by omega),
    Nat.and_two_pow_sub_one_eq_mod, toNat_zeroExtend]
  by_cases narrow : bits ≤ 64
  · rw [Nat.min_eq_left narrow]
  · have wide : (2 : Nat) ^ 64 ≤ 2 ^ bits := Nat.pow_le_pow_right (by decide) (by omega)
    rw [Nat.min_eq_right (by omega), Nat.mod_eq_of_lt value.isLt, Nat.mod_eq_of_lt (by omega)]

/-- The sign bit of the low bits moves to the top of the word and is copied on the way back. -/
theorem sshiftRight_shiftLeft_eq_signExtend (value : Value) {bits : Nat} (positive : 0 < bits)
    (narrow : bits < 64) :
    (value <<< (64 - bits)).sshiftRight (64 - bits) = (value.setWidth bits).signExtend 64 := by
  have sign : (value <<< (64 - bits)).msb = (value.setWidth bits).msb := by
    rw [BitVec.msb_eq_getLsbD_last, BitVec.msb_eq_getLsbD_last, BitVec.getLsbD_shiftLeft,
      BitVec.getLsbD_setWidth, show 64 - 1 - (64 - bits) = bits - 1 by omega]
    simp [show ¬63 < 64 - bits by omega, show bits - 1 < bits by omega]
  apply BitVec.eq_of_getLsbD_eq
  intro i below
  rw [BitVec.getLsbD_sshiftRight, BitVec.getLsbD_signExtend, sign]
  by_cases inside : i < bits
  · simp [inside, below, show 64 - bits + i < 64 by omega, show ¬64 ≤ i by omega,
      show ¬64 - bits + i < 64 - bits by omega]
  · simp [inside, below, show ¬64 - bits + i < 64 by omega, show ¬64 ≤ i by omega]

theorem signExtend?_eq (bits : Nat) (value : Value) :
    signExtend? bits value = some (signExtend bits value) := by
  unfold signExtend? signExtend
  split
  · rfl
  · next between =>
    have raised : shiftLeft? value (64 - bits) = some (value <<< (64 - bits)) :=
      result?_eq (by omega) _
    have lowered : shiftRightSigned? (value <<< (64 - bits)) (64 - bits) =
        some ((value <<< (64 - bits)).sshiftRight (64 - bits)) := result?_eq (by omega) _
    rw [raised, Option.bind_eq_bind, Option.bind_some, lowered,
      sshiftRight_shiftLeft_eq_signExtend value (by omega) (by omega)]

/-- A shift to the left among the low `bits` bits. -/
def shiftLeftWithin? (bits : Nat) (value : Value) (amount : Nat) : Option Value := do
  let shifted ← shiftLeft? value amount
  zeroExtend? bits shifted

theorem shiftLeftWithin?_eq (bits : Nat) (value : Value) (amount : Nat) :
    shiftLeftWithin? bits value amount =
      result? (amount < 64) (zeroExtend bits (value <<< amount)) := by
  unfold shiftLeftWithin? shiftLeft? result?
  split
  · exact zeroExtend?_eq bits _
  · rfl

def CType.normalize? (ty : CType) (value : Value) : Option Value :=
  match ty with
  | .bool => some (if value = 0 then 0 else 1)
  | .struct => some value
  | ty => if ty.isSigned then signExtend? ty.bits value else zeroExtend? ty.bits value

theorem CType.normalize?_eq (ty : CType) (value : Value) :
    ty.normalize? value = some (ty.normalize value) := by
  cases ty <;>
    simp only [normalize?, normalize, zeroExtend?_eq, signExtend?_eq, isSigned, Bool.false_eq_true,
      if_true, if_false]

/-! ## Operators -/

def BinaryOp.compute? (op : BinaryOp) (ty : CType) (lhs rhs : Value) : Option Value := do
  let ul ← zeroExtend? ty.bits lhs
  let ur ← zeroExtend? ty.bits rhs
  let sl ← signExtend? ty.bits lhs
  let sr ← signExtend? ty.bits rhs
  let made? : Option Value :=
    match op with
    | .add => some (lhs + rhs)
    | .sub => some (lhs - rhs)
    | .mul => some (lhs * rhs)
    | .udiv => if ur = 0 then some (-1) else divide? ul ur
    | .sdiv => if sr = 0 then some (if sl.msb then 1 else -1) else divideSigned? sl sr
    | .urem => if ur = 0 then some lhs else remainder? ul ur
    | .srem => if sr = 0 then some lhs else remainderSigned? sl sr
    | .shl => if ty.bits ≤ ur.toNat then some 0 else shiftLeftWithin? ty.bits ul ur.toNat
    | .lshr => if ty.bits ≤ ur.toNat then some 0 else shiftRight? ul ur.toNat
    | .ashr =>
      if ty.bits ≤ ur.toNat then some (if sl.msb then -1 else 0) else shiftRightSigned? sl ur.toNat
    | .and => some (lhs &&& rhs)
    | .or => some (lhs ||| rhs)
    | .xor => some (lhs ^^^ rhs)
  made? >>= ty.normalize?

def CompareOp.compute? (op : CompareOp) (bits : Nat) (lhs rhs : Value) : Option Bool := do
  let ul ← zeroExtend? bits lhs
  let ur ← zeroExtend? bits rhs
  let sl ← signExtend? bits lhs
  let sr ← signExtend? bits rhs
  return match op with
    | .eq => ul == ur
    | .ne => ul != ur
    | .ugt => ur.ult ul
    | .ule => ul.ule ur
    | .ult => ul.ult ur
    | .uge => ur.ule ul
    | .sgt => sr.slt sl
    | .sle => sl.sle sr
    | .slt => sl.slt sr
    | .sge => sr.sle sl

def PointerOp.compute? (op : PointerOp) (size : BitVec 64) (lhs rhs : Value) : Option Value :=
  match op with
  | .addIndex => some (lhs + rhs * elementScale size)
  | .subIndex => some (lhs - rhs * elementScale size)
  | .difference => divideSigned? (lhs - rhs) (elementScale size)

/-- A guard takes over from the instruction where it would stop. -/
theorem ite_result?_eq {guard accepted : Prop} [Decidable guard] [Decidable accepted]
    (covered : ¬guard → accepted) (spare result : Value) :
    (if guard then some spare else result? accepted result) =
      some (if guard then spare else result) := by
  split
  · rfl
  · next outside => exact result?_eq (covered outside) result

theorem BinaryOp.compute?_eq (op : BinaryOp) (ty : CType) (lhs rhs : Value) :
    op.compute? ty lhs rhs = some (op.apply ty lhs rhs) := by
  have inside (amount : Nat) (below : ¬ty.bits ≤ amount) : amount < 64 := by
    have narrow := ty.bits_le
    omega
  have converted {made? : Option Value} {made : Value} (same : made? = some made) :
      made?.bind ty.normalize? = some (ty.normalize made) := by
    rw [same, Option.bind_some, CType.normalize?_eq]
  simp only [compute?, apply, zeroExtend?_eq, signExtend?_eq, Option.bind_eq_bind, Option.bind_some]
  apply converted
  cases op with
  | add | sub | mul | and | or | xor => rfl
  | udiv | sdiv | urem | srem => exact ite_result?_eq id _ _
  | lshr | ashr => exact ite_result?_eq (inside _) _ _
  | shl =>
    refine (congrArg (ite _ (some 0)) (shiftLeftWithin?_eq _ _ _)).trans ?_
    exact ite_result?_eq (inside _) _ _

theorem CompareOp.compute?_eq (op : CompareOp) (bits : Nat) (lhs rhs : Value) :
    op.compute? bits lhs rhs = some (op.apply bits lhs rhs) := by
  simp only [compute?, zeroExtend?_eq, signExtend?_eq, Option.bind_eq_bind, Option.bind_some]
  rfl

theorem PointerOp.compute?_eq (op : PointerOp) (size : BitVec 64) (lhs rhs : Value) :
    op.compute? size lhs rhs = some (op.apply size lhs rhs) := by
  cases op with
  | addIndex | subIndex => rfl
  | difference => exact result?_eq (elementScale_ne_zero size) _

end Concolic
