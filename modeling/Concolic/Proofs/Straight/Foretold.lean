import Concolic.Proofs.Machine.Honest
import Concolic.Proofs.Straight.Program

/-!
# What symbolic values foretell

On other inputs an operand has the value that its expression has there, and so has every byte of
memory that a binding covers.  Operators, loads and stores of the machine keep to this: what they
give has on other inputs the value that the same operation computes there.
-/

namespace Concolic

open Concolic.Expr

/-- The value of an operand on other inputs than those of the run. -/
def Operand.on (inputs : List Value) : Operand → TypedValue
  | .concrete typed => typed
  | .symbolic e => ⟨e.ty, e.evaluate inputs⟩

/-- The byte at an address on other inputs: that of the binding that covers it, else the one seen
on the run itself. -/
def Cells.foretold (cells : Cells) (inputs : List Value) (seen : Straight.Bytes)
    (byte : Address) : BitVec 8 :=
  match cells.origin? byte.toNat with
  | some origin => byteAt (origin.root.evaluate inputs) origin.index
  | none => seen byte

theorem Cells.foretold_of_origin? {cells : Cells} {byte : Address} {origin : Origin}
    (found : cells.origin? byte.toNat = some origin) (inputs : List Value)
    (seen : Straight.Bytes) :
    cells.foretold inputs seen byte = byteAt (origin.root.evaluate inputs) origin.index := by
  rw [foretold, found]

theorem Cells.foretold_of_uncovered {cells : Cells} {byte : Address}
    (uncovered : cells.origin? byte.toNat = none) (inputs : List Value)
    (seen : Straight.Bytes) : cells.foretold inputs seen byte = seen byte := by
  rw [foretold, uncovered]

variable {own : List Value} {vars : WordMap 32 CType} {operand lhs rhs : Operand} {ty : CType}
  {value : Value} (inputs : List Value)

/-! ## Operands -/

namespace Operand

theorem ty_on (operand : Operand) : (operand.on inputs).ty = operand.ty := by
  cases operand <;> rfl

theorem bits_on (formed : operand.Formed (Tracked (· ≠ .bool) own vars))
    (scalar : operand.ty ≠ .struct) : 8 * (operand.on inputs).bytes = operand.bits := by
  have scalarOn : (operand.on inputs).ty ≠ .struct := by rwa [ty_on]
  rw [Memory.bytes_of_scalar scalarOn, ty_on, bits_of_scalar formed scalar, CType.bits]

/-- On the inputs of the run the operand has its recorded value. -/
theorem value_on_own (formed : operand.Formed (Tracked (· ≠ .bool) own vars))
    (scalar : operand.ty ≠ .struct) : (operand.on own).value = operand.value := by
  cases operand with
  | concrete typed => rfl
  | symbolic e => exact (holds_of_symbolic formed scalar).1.evaluate_eq_value

theorem on_concrete_of (ty : CType) (value : Value) :
    (concrete (.of ty (TypedValue.of ty value).value)).on inputs = .of ty value :=
  congrArg (TypedValue.mk ty) (ty.normalize_normalize value)

theorem setWidth_evaluate_lift (notBool : ty ≠ .bool) (scalar : ty ≠ .struct)
    (operand : Operand) :
    ((operand.lift ty).evaluate inputs).setWidth ty.bits =
      (operand.on inputs).value.setWidth ty.bits := by
  cases operand with
  | symbolic e => rfl
  | concrete typed =>
    rw [lift_concrete scalar]
    exact CType.setWidth_normalize notBool typed.value

theorem evaluate_lift_own (formed : operand.Formed (Tracked (· ≠ .bool) own vars))
    (scalar : operand.ty ≠ .struct) (sameType : ty = operand.ty) :
    (operand.lift ty).evaluate inputs = (operand.on inputs).value := by
  cases operand with
  | symbolic e => rfl
  | concrete typed =>
    subst sameType
    have lifted : (Operand.concrete typed).lift typed.ty = .mkConst typed.ty typed.value :=
      lift_concrete scalar typed
    rw [Operand.ty, lifted]
    exact normalize_value formed scalar

theorem evaluate_lift_of_size_eq_eight (wide : ty.size = 8) (scalar : ty ≠ .struct)
    (operand : Operand) : (operand.lift ty).evaluate inputs = (operand.on inputs).value := by
  cases operand with
  | symbolic e => rfl
  | concrete typed =>
    rw [lift_concrete scalar]
    exact CType.normalize_of_size_eq_eight wide typed.value

theorem exists_of_plain (plain : ¬(lhs.isSymbolic || rhs.isSymbolic) = true) :
    ∃ left right, lhs = .concrete left ∧ rhs = .concrete right := by
  cases lhs with
  | symbolic e => simp [isSymbolic] at plain
  | concrete left =>
    cases rhs with
    | symbolic e => simp [isSymbolic] at plain
    | concrete right => exact ⟨left, right, rfl, rfl⟩

end Operand

/-! ## Operators -/

namespace Machine

open Operand

theorem on_applyUnary (op : UnaryOp) (formed : operand.Formed (Tracked (· ≠ .bool) own vars))
    (scalar : operand.ty ≠ .struct)
    (seen : value = (TypedValue.of ty (op.apply ty operand.bits operand.value)).value) :
    (applyUnary op operand ty value).on inputs =
      .of ty (op.apply ty (8 * (operand.on inputs).bytes) (operand.on inputs).value) := by
  rw [bits_on inputs formed scalar]
  cases operand with
  | concrete typed =>
    rw [seen]
    exact on_concrete_of inputs ty _
  | symbolic e => exact congrArg (TypedValue.mk ty) (op.normalize_apply ty _ _).symm

theorem on_applyBinary (op : BinaryOp) (notBool : ty ≠ .bool) (scalar : ty ≠ .struct)
    (seen : value = (TypedValue.of ty (op.apply ty lhs.value rhs.value)).value) :
    (applyBinary op lhs rhs ty value).on inputs =
      .of ty (op.apply ty (lhs.on inputs).value (rhs.on inputs).value) := by
  unfold applyBinary
  split
  · refine congrArg (TypedValue.mk ty) ?_
    rw [op.normalize_apply, mkBinary, evaluate]
    exact op.apply_congr notBool scalar (setWidth_evaluate_lift inputs notBool scalar lhs)
      (setWidth_evaluate_lift inputs notBool scalar rhs)
  · next plain =>
    obtain ⟨left, right, rfl, rfl⟩ := exists_of_plain plain
    rw [seen]
    exact on_concrete_of inputs ty _

theorem on_applyCompare (op : CompareOp)
    (left : lhs.Formed (Tracked (· ≠ .bool) own vars))
    (right : rhs.Formed (Tracked (· ≠ .bool) own vars))
    (scalarLeft : lhs.ty ≠ .struct) (scalarRight : rhs.ty ≠ .struct) (sameType : lhs.ty = rhs.ty)
    (seen : value = (TypedValue.of ty
      (flag (op.apply (max lhs.bits rhs.bits) lhs.value rhs.value))).value) :
    (applyCompare op lhs rhs ty value).on inputs =
      .of ty (flag (op.apply (max (8 * (lhs.on inputs).bytes) (8 * (rhs.on inputs).bytes))
        (lhs.on inputs).value (rhs.on inputs).value)) := by
  rw [bits_on inputs left scalarLeft, bits_on inputs right scalarRight]
  unfold applyCompare
  split
  · refine congrArg (TypedValue.mk ty) ?_
    have bitsLeft := (lift_own left scalarLeft (.inr sameType.symm)).2
    have bitsRight := (lift_own right scalarRight (.inr sameType)).2
    rw [mkCompare, evaluate, evaluate_lift_own inputs left scalarLeft sameType.symm,
      evaluate_lift_own inputs right scalarRight sameType, bitsLeft, bitsRight]
  · next plain =>
    obtain ⟨left, right, rfl, rfl⟩ := exists_of_plain plain
    rw [seen]
    exact on_concrete_of inputs ty _

theorem on_applyPointer (op : PointerOp) {size : BitVec 64}
    (seen : value = (TypedValue.of op.resultType (op.apply size lhs.value rhs.value)).value) :
    (applyPointer op lhs rhs size value).on inputs =
      .of op.resultType (op.apply size (lhs.on inputs).value (rhs.on inputs).value) := by
  have scalarType : op.rightType ≠ .struct := by cases op <;> decide
  have wideRight : op.rightType.size = 8 := by cases op <;> rfl
  unfold applyPointer
  split
  · refine congrArg (TypedValue.mk op.resultType) ?_
    rw [op.normalize_resultType, mkPointer, evaluate,
      evaluate_lift_of_size_eq_eight inputs rfl (by decide),
      evaluate_lift_of_size_eq_eight inputs wideRight scalarType]
  · next plain =>
    obtain ⟨left, right, rfl, rfl⟩ := exists_of_plain plain
    rw [seen]
    exact on_concrete_of inputs op.resultType _

end Machine

/-! ## Loads -/

namespace Memory

open Straight

variable {memory : Memory} {address : Address} {e : Expr} {parts : List (BitVec 32 × Expr)}
  {seen : Bytes}

/-- What a read makes of its parts is the observed value with the bytes of the parts. -/
theorem on_combine {observed : TypedValue} (scalar : observed.ty ≠ .struct)
    (notBool : observed.ty ≠ .bool)
    (normal : observed.ty.normalize observed.value = observed.value)
    (fit : PartsFit observed.bytes parts) (shaped : ∀ part ∈ parts, part.2.WellShaped)
    (fresh : ∀ part ∈ parts, isFresh observed.value part = true) :
    (combine observed parts).on inputs =
      .of observed.ty (layParts (evaluate inputs) parts observed.value) := by
  rcases combine_spec scalar normal fit (fun part member ↦ (shaped part member).isConverted) fresh
    with ⟨rfl, result⟩ | ⟨-, e, result, combined⟩
  · rw [result]
    exact congrArg (TypedValue.mk observed.ty) normal.symm
  · rw [result, Operand.on, combined.ty, combined.evaluate,
      CType.normalize_byteRange notBool scalar]
    rfl

theorem toNat_add_ofNat {bytes index : Nat} (fits : FitsAt address bytes) (below : index < bytes) :
    (address + BitVec.ofNat 64 index).toNat = address.toNat + index := by
  unfold FitsAt at fits
  exact Address.toNat_add_ofNat (by omega)

/-- Laid over the bytes that were seen, the parts of a range give those that are foretold. -/
theorem byteAt_layParts_foretold {size : Nat} (layout : Layout memory.cells)
    (fits : FitsAt address size) (narrow : size ≤ 8)
    (agree : ∀ index < size, byteAt value index = seen (address + BitVec.ofNat 64 index))
    {index : Nat} (below : index < size) :
    byteAt (layParts (evaluate inputs) (memory.partsIn address size) value) index =
      Cells.foretold memory.cells inputs seen (address + BitVec.ofNat 64 index) := by
  have fit : PartsFit size (memory.partsIn address size) :=
    partsFit_partsIn layout.ranges address (by omega)
  have origin : partOrigin? (memory.partsIn address size) index =
      Cells.origin? memory.cells (address + BitVec.ofNat 64 index).toNat := by
    rw [partOrigin?_partsIn layout address (by omega) below, toNat_add_ofNat fits below]
  cases found : partOrigin? (memory.partsIn address size) index with
  | none =>
    rw [byteAt_layParts_of_not_covers _ _ (by omega) ((partOrigin?_eq_none_iff ..).mp found),
      agree index below, Cells.foretold_of_uncovered (origin.symm.trans found)]
  | some place =>
    obtain ⟨part, member, covers, same⟩ := exists_of_partOrigin? found
    have inside : index - part.1.toNat < part.2.bytes := by
      unfold PartCovers at covers
      omega
    calc byteAt (layParts (evaluate inputs) (memory.partsIn address size) value) index
        = byteAt (part.2.evaluate inputs) (index - part.1.toNat) :=
          byteAt_layParts_of_covers _ fit _ member (by omega) covers
      _ = byteAt (place.root.evaluate inputs) place.index := by
          rw [byteAt_evaluate_eq_root inputs _ inside, same]
          rfl
      _ = Cells.foretold memory.cells inputs seen (address + BitVec.ofNat 64 index) :=
          (Cells.foretold_of_origin? (origin.symm.trans found) inputs seen).symm

/-- No part of a range is stale when memory holds what is foretold for the inputs of the run. -/
theorem isFresh_of_foretold {size : Nat} (layout : Layout memory.cells)
    (all : AllCells (Tracked (· ≠ .bool) own vars) memory.cells)
    (fits : FitsAt address size) (narrow : size ≤ 8)
    (agree : ∀ index < size, byteAt value index =
      Cells.foretold memory.cells own seen (address + BitVec.ofNat 64 index))
    {part : BitVec 32 × Expr} (member : part ∈ memory.partsIn address size) :
    isFresh value part = true := by
  have fit : PartsFit size (memory.partsIn address size) :=
    partsFit_partsIn layout.ranges address (by omega)
  have tracked : Tracked (· ≠ .bool) own vars part.2 :=
    all_partsIn layout (Tracked.cut_closed fun _ notBool ↦ notBool) all member
  have ends := fit.inside part member
  rw [isFresh, beq_iff_eq, recordedBytes, observedBytes, byteRange_eq_iff]
  intro index below
  have inside : index < part.2.bytes := by omega
  have within : part.1.toNat + index < size := by omega
  have covers : PartCovers part (part.1.toNat + index) := by
    unfold PartCovers
    omega
  have origin : Cells.origin? memory.cells
      (address + BitVec.ofNat 64 (part.1.toNat + index)).toNat = some (part.2.origin index) := by
    rw [toNat_add_ofNat fits within, ← partOrigin?_partsIn layout address (by omega) within,
      partOrigin?_of_covers fit member covers, Nat.add_sub_cancel_left]
  calc byteAt part.2.value (0 + index)
      = byteAt (part.2.evaluate own) index := by rw [Nat.zero_add, tracked.evaluate_eq_value]
    _ = byteAt (part.2.root.evaluate own) (part.2.start + index) :=
        byteAt_evaluate_eq_root own _ inside
    _ = Cells.foretold memory.cells own seen
          (address + BitVec.ofNat 64 (part.1.toNat + index)) :=
        (Cells.foretold_of_origin? origin own seen).symm
    _ = byteAt value (part.1.toNat + index) := (agree _ within).symm

/-- A load gives on other inputs what is loaded from the memory of the run on them. -/
theorem on_loaded {state other : Bytes} (layout : Layout memory.cells)
    (all : AllCells (Tracked (· ≠ .bool) own vars) memory.cells)
    (notBool : ty ≠ .bool) (scalar : ty ≠ .struct) (fits : FitsAt address ty.size)
    (mine : ∀ byte, state byte = Cells.foretold memory.cells own state byte)
    (theirs : ∀ byte, other byte = Cells.foretold memory.cells inputs state byte) :
    (memory.loaded address (.of ty (loadBytes state address ty.size))).on inputs =
      .of ty (loadBytes other address ty.size) := by
  let observed := TypedValue.of ty (loadBytes state address ty.size)
  have narrow := ty.size_le_eight
  have size : observed.bytes = ty.size := TypedValue.bytes_of scalar _
  have agree (index : Nat) (below : index < ty.size) :
      byteAt observed.value index = state (address + BitVec.ofNat 64 index) := by
    have low := (setWidth_eq_iff_byteAt ty.size _ _).mp
      (CType.setWidth_normalize notBool (loadBytes state address ty.size)) index below
    exact low.trans (byteAt_loadBytes state below narrow address)
  have fit : PartsFit ty.size (memory.partsIn address ty.size) :=
    partsFit_partsIn layout.ranges address (by omega)
  have current (part : BitVec 32 × Expr) (member : part ∈ memory.partsIn address ty.size) :
      isFresh observed.value part = true :=
    isFresh_of_foretold layout all fits narrow
      (fun index below ↦ (agree index below).trans (mine _)) member
  have fresh : (memory.partsIn address ty.size).filter (isFresh observed.value) =
      memory.partsIn address ty.size := List.filter_eq_self.mpr current
  have shaped (part : BitVec 32 × Expr) (member : part ∈ memory.partsIn address ty.size) :
      part.2.WellShaped := by
    have tracked : Tracked (· ≠ .bool) own vars part.2 :=
      all_partsIn layout (Tracked.cut_closed fun _ notBool ↦ notBool) all member
    exact tracked.here.shaped
  have result : memory.loaded address observed =
      combine observed (memory.partsIn address ty.size) := by
    have notStruct : observed.ty.isStruct = false := (CType.isStruct_eq_false_iff ty).mpr scalar
    rw [loaded, notStruct, if_neg Bool.false_ne_true, size, fresh]
  have low : (layParts (evaluate inputs) (memory.partsIn address ty.size)
      observed.value).setWidth ty.bits = (loadBytes other address ty.size).setWidth ty.bits := by
    refine (setWidth_eq_iff_byteAt ty.size _ _).mpr fun index below ↦ ?_
    rw [byteAt_layParts_foretold inputs layout fits narrow agree below,
      byteAt_loadBytes other below narrow, theirs]
  rw [result, on_combine inputs scalar notBool (TypedValue.normalize_of ty _)
    (size.symm ▸ fit) shaped current]
  exact congrArg (TypedValue.mk ty) (CType.normalize_congr notBool scalar low)

/-! ## Stores -/

/-- A byte of a stored operand on other inputs: that of its origin, or the one stored on the run
where nothing is tracked. -/
theorem foretold_operand (formed : operand.Formed (Tracked (· ≠ .bool) own vars))
    (scalar : operand.ty ≠ .struct) {index : Nat} (inside : index < operand.bytes) :
    byteAt (operand.on inputs).value index =
      match operand.origin? index with
      | some origin => byteAt (origin.root.evaluate inputs) origin.index
      | none => byteAt (operand.on own).value index := by
  cases operand with
  | concrete typed => rfl
  | symbolic e =>
    by_cases concrete : e.isConcrete = true
    · rw [origin?_of_isConcrete concrete]
      exact congrArg (byteAt · index) (evaluate_eq_of_isConcrete concrete inputs own)
    · rw [origin?_scalar (by simpa using concrete) scalar]
      exact byteAt_evaluate_eq_root inputs e inside

/-- Storing an operand keeps what is foretold in step with the memory of the run on other
inputs. -/
theorem foretold_stored {cells after : Cells} {state other : Bytes}
    (formed : operand.Formed (Tracked (· ≠ .bool) own vars))
    (scalar : operand.ty ≠ .struct) (stored : Stored address operand cells after)
    (theirs : ∀ byte, other byte = cells.foretold inputs state byte) (byte : Address) :
    storeBytes other address operand.bytes (operand.on inputs).value byte =
      after.foretold inputs (storeBytes state address operand.bytes (operand.on own).value)
        byte := by
  have origin := stored.origin byte.toNat
  by_cases range : InRange address.toNat (address.toNat + operand.bytes) byte.toNat
  · rw [if_pos range] at origin
    have inside : byte.toNat - address.toNat < operand.bytes := by
      unfold InRange at range
      omega
    rw [storeBytes, if_pos range, foretold_operand inputs formed scalar inside, Cells.foretold,
      origin, storeBytes, if_pos range]
  · rw [if_neg range] at origin
    rw [storeBytes, if_neg range, theirs, Cells.foretold, Cells.foretold, origin, storeBytes,
      if_neg range]

end Memory

end Concolic
