import Concolic.Proofs.Operator.LowBits

/-!
# Meaning of the terms that stand for operators

Every term that the encoding builds from the terms of operands means the operator applied to the
meanings of the operands.  A term for a value means its low bits, so each statement relates the low
bits of a 64-bit result to the low bits of its arguments.
-/

namespace Concolic.Smt

namespace Term

variable {env : Environment} {term lhs rhs : Term} {width : Nat}

/-! ## Constants and truth values -/

theorem meaning_constant (env : Environment) (value : Value) (positive : 0 < width) :
    (constant value width).meaning env = some (.word width (value.setWidth width)) := by
  have bound : (Concolic.zeroExtend width value).toNat < 2 ^ width := by
    rw [toNat_zeroExtend_eq_toNat]
    exact (value.setWidth width).isLt
  rw [constant, meaning, if_pos ⟨positive, bound⟩, setWidth_zeroExtend value (Nat.le_refl width)]

theorem meaning_isNonzero {value : BitVec width} (positive : 0 < width)
    (operand : term.meaning env = some (.word width value)) :
    (term.isNonzero width).meaning env = some (.truth (value != BitVec.ofNat width 0)) := by
  simp [isNonzero, meaning, operand, meaning_constant env _ positive, Meaning.zipWords,
    Meaning.mapTruth, BitRel.apply, bne]

theorem meaning_ofCondition {truth : Bool} (positive : 0 < width)
    (operand : term.meaning env = some (.truth truth)) :
    (term.ofCondition width).meaning env = some (.word width ((flag truth).setWidth width)) := by
  simp only [ofCondition, meaning, operand, meaning_constant env _ positive, Option.bind_some,
    Meaning.choose, Meaning.sort_word, if_true, flag]
  cases truth <;> rfl

/-! ## Widths -/

theorem meaning_extract {value : Value} (first bytes : Nat)
    (operand : term.meaning env = some (.word width (value.setWidth width)))
    (nonempty : 0 < bytes) (inside : first + bytes ≤ width) :
    (extract (first + bytes - 1) first term).meaning env =
      some (.word bytes (value.extractLsb' first bytes)) := by
  have range : first ≤ first + bytes - 1 ∧ first + bytes - 1 < width := by omega
  simp only [meaning, operand, Option.bind_some, Meaning.mapWord, if_pos range]
  refine congrArg some (Meaning.word_congr (by omega) ?_)
  have count : first + bytes - 1 - first + 1 = bytes := by omega
  rw [BitVec.extractLsb, BitVec.extractLsb'_toNat, BitVec.extractLsb'_toNat, BitVec.toNat_setWidth,
    count]
  apply Nat.eq_of_testBit_eq
  intro i
  simp only [Nat.testBit_mod_two_pow, Nat.testBit_shiftRight]
  by_cases below : i < bytes
  · simp [below, show first + i < width by omega]
  · simp [below]

/-- Bringing a word to another width extends it by sign or by zeros, or cuts it off. -/
theorem meaning_resize {value : Value} {target : Nat} (signed : Bool)
    (operand : term.meaning env = some (.word width (value.setWidth width)))
    (positive : 0 < width) (nonempty : 0 < target) (narrow : target ≤ 64) :
    (term.resize width target signed).meaning env =
      some (.word target ((extend signed width value).setWidth target)) := by
  unfold resize
  split
  · next same =>
    rw [operand, ← same, setWidth_extend signed value (Nat.le_refl width)]
  · split
    · next wider =>
      have total : width + (target - width) = target := by omega
      have low := setWidth_of_extend_eq (extend_extend signed value positive) positive
        (Nat.le_of_lt wider) narrow
      rw [low, setWidth_extend signed value (Nat.le_refl width)]
      cases signed with
      | false =>
        simp only [Bool.false_eq_true, if_false, meaning, operand, Option.bind_some,
          Meaning.mapWord]
        exact congrArg some (Meaning.word_congr total (by simp [total]))
      | true =>
        simp only [if_true, meaning, operand, Option.bind_some, Meaning.mapWord]
        exact congrArg some (Meaning.word_congr total (by rw [total]))
    · next narrower =>
      have cut := meaning_extract 0 target operand nonempty (by omega)
      rw [Nat.zero_add] at cut
      rw [cut, setWidth_extend signed value (by omega), BitVec.setWidth_eq_extractLsb' narrow]

end Term

/-! ## Operators -/

open Term

variable {env : Environment} {lhs rhs : Term} {width : Nat}

theorem meaning_binary (op : BitOp) {a b : BitVec width}
    (left : lhs.meaning env = some (.word width a))
    (right : rhs.meaning env = some (.word width b)) :
    (Term.binary op lhs rhs).meaning env = some (.word width (op.apply a b)) := by
  simp [meaning, left, right, Meaning.zipWords]

theorem meaning_rel (op : BitRel) {a b : BitVec width}
    (left : lhs.meaning env = some (.word width a))
    (right : rhs.meaning env = some (.word width b)) :
    (Term.rel op lhs rhs).meaning env = some (.truth (op.apply a b)) := by
  simp [meaning, left, right, Meaning.zipWords]

theorem meaning_negation {term : Term} {truth : Bool}
    (operand : term.meaning env = some (.truth truth)) :
    (Term.negation term).meaning env = some (.truth !truth) := by
  simp [meaning, operand, Meaning.mapTruth]

theorem meaning_comparison (op : CompareOp) {a b : BitVec width}
    (left : lhs.meaning env = some (.word width a))
    (right : rhs.meaning env = some (.word width b)) :
    (comparison op lhs rhs).meaning env = some (.truth (op.holds a b)) := by
  cases op with
  | ne => exact meaning_negation (meaning_rel .eq left right)
  | eq => exact meaning_rel .eq left right
  | ult => exact meaning_rel .ult left right
  | ule => exact meaning_rel .ule left right
  | slt => exact meaning_rel .slt left right
  | sle => exact meaning_rel .sle left right
  | ugt => exact meaning_rel .ult right left
  | uge => exact meaning_rel .ule right left
  | sgt => exact meaning_rel .slt right left
  | sge => exact meaning_rel .sle right left

theorem meaning_pointerArithmetic (op : PointerOp) (size : BitVec 64) {a b : Value}
    (left : lhs.meaning env = some (.word 64 a)) (right : rhs.meaning env = some (.word 64 b)) :
    (pointerArithmetic op lhs rhs size).meaning env = some (.word 64 (op.apply size a b)) := by
  have scale : (Term.constant (elementScale size) CType.pointer.bits).meaning env =
      some (.word 64 (elementScale size)) := by
    have constant := meaning_constant env (elementScale size) (show 0 < 64 by omega)
    rwa [BitVec.setWidth_eq] at constant
  cases op with
  | addIndex => exact meaning_binary .add left (meaning_binary .mul right scale)
  | subIndex => exact meaning_binary .sub left (meaning_binary .mul right scale)
  | difference =>
    rw [PointerOp.apply_difference]
    exact meaning_binary .sdiv (meaning_binary .sub left right) scale

/-! ## Bytes on top of each other -/

/-- The pieces mean the bytes `first` to `past` of a value, lowest first. -/
inductive Stacked (env : Environment) (value : Value) : Nat → Nat → List Term → Prop
  | nil (first : Nat) : Stacked env value first first []
  | cons {first middle past : Nat} {piece : Term} {rest : List Term} (nonempty : first < middle)
      (meaning : piece.meaning env =
        some (.word (8 * (middle - first))
          (value.extractLsb' (8 * first) (8 * (middle - first)))))
      (above : Stacked env value middle past rest) : Stacked env value first past (piece :: rest)

namespace Stacked

variable {value : Value} {first past : Nat} {pieces : List Term}

theorem meaning_foldl {low : Nat} {below : Term} (start : low < first)
    (bottom : below.meaning env =
      some (.word (8 * (first - low)) (value.extractLsb' (8 * low) (8 * (first - low)))))
    (stacked : Stacked env value first past pieces) :
    (pieces.foldl (fun below piece ↦ .concat piece below) below).meaning env =
      some (.word (8 * (past - low)) (value.extractLsb' (8 * low) (8 * (past - low)))) := by
  induction stacked generalizing below with
  | nil => exact bottom
  | @cons first middle past piece rest nonempty top above ih =>
    refine ih (by omega) ?_
    simp only [meaning, top, bottom, Option.bind_some, Meaning.mapWord]
    have total : 8 * (middle - first) + 8 * (first - low) = 8 * (middle - low) := by omega
    refine congrArg some (Meaning.word_congr total ?_)
    rw [BitVec.extractLsb'_append_extractLsb'_eq_extractLsb' (by omega),
      BitVec.extractLsb'_toNat, BitVec.extractLsb'_toNat, total]

/-- All pieces together mean the whole range. -/
theorem meaning_stack (stacked : Stacked env value first past pieces) (nonempty : first < past)
    (other : Term) :
    ((stack pieces).getD other).meaning env =
      some (.word (8 * (past - first)) (value.extractLsb' (8 * first) (8 * (past - first)))) := by
  cases stacked with
  | nil => omega
  | cons start meaning above => exact above.meaning_foldl start meaning

end Stacked

/-- The filler means the bytes of a value that agrees with the filling one there. -/
theorem meaning_filler (env : Environment) {value whole : Value} {first past : Nat}
    (nonempty : first < past)
    (agree : ∀ index, first ≤ index → index < past → byteAt whole index = byteAt value index) :
    (Term.filler value first past).meaning env =
      some (.word (8 * (past - first))
        (whole.extractLsb' (8 * first) (8 * (past - first)))) := by
  rw [filler, meaning_constant env _ (by omega)]
  refine congrArg (fun bits ↦ some (Meaning.word _ bits)) ?_
  rw [(extractLsb'_eq_iff_byteAt whole value first first _).mpr fun index below ↦
    agree (first + index) (by omega) (by omega)]
  apply BitVec.eq_of_getLsbD_eq
  intro i below
  simp [below]

/-- A filler below what is stacked from `middle` on, if there is room for one. -/
theorem Stacked.fill {value whole : Value} {first middle past : Nat} {pieces : List Term}
    (stacked : Stacked env whole middle past pieces) (space : first ≤ middle)
    (agree : ∀ index, first ≤ index → index < middle → byteAt whole index = byteAt value index) :
    Stacked env whole first past
      ((if first < middle then [Term.filler value first middle] else []) ++ pieces) := by
  split
  · next gap => exact .cons gap (meaning_filler env gap agree) stacked
  · obtain rfl : first = middle := by omega
    exact stacked

end Concolic.Smt
