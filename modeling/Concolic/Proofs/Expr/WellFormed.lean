import Concolic.Proofs.CType.Conversion
import Concolic.Proofs.Expr.Parts
import Concolic.Proofs.Expr.Slice
import Concolic.Proofs.Operator.LowBits

/-!
# Well-formed expressions

`Encodable` is what a node needs for its tree to have a bit-vector form, `WellShaped` what the nodes
that a run builds have.  The value of a well-formed scalar expression is canonical for its width and
sign, on the observed run and on all other inputs.
-/

namespace Concolic.Expr

/-- The value is the extension of its own low bits at the width and the sign of `e`. -/
def IsCanonical (e : Expr) (value : Value) : Prop :=
  extend e.isSigned e.bits value = value

/-- What a node of a scalar tree needs in order to have a bit-vector form. -/
def Encodable : Expr → Prop
  | .input _ ty value | .const ty value => ty ≠ .struct ∧ ty.normalize value = value
  | .unary op _ ty _ => ty ≠ .struct ∧ (ty = .bool → op = .logicalNot)
  | .binary _ _ _ ty _ => ty ≠ .struct ∧ ty ≠ .bool
  | .compare _ _ _ ty _ => ty ≠ .struct
  | .pointer .. => True
  | .slice whole offset bytes _ =>
    0 < bytes.toNat ∧ offset.toNat + bytes.toNat ≤ whole.bytes
  | .assemble ty size parts _ =>
    ty ≠ .struct ∧ ty ≠ .bool ∧ size.toNat = ty.size ∧ PartsFit size.toNat parts

instance : (e : Expr) → Decidable (Encodable e)
  | .input .. | .const .. | .binary .. | .slice .. => inferInstanceAs (Decidable (_ ∧ _))
  | .unary .. => inferInstanceAs (Decidable (_ ∧ (_ → _)))
  | .compare .. => inferInstanceAs (Decidable (_ ≠ _))
  | .pointer .. => inferInstanceAs (Decidable True)
  | .assemble .. => inferInstanceAs (Decidable (_ ∧ _ ∧ _ ∧ _))

/-- A tree of encodable nodes in which every input has one type. -/
structure ScalarWellFormed (e : Expr) : Prop where
  nodes : Everywhere Encodable e
  typed : ∀ id ty other value second,
    .input id ty value ∈ e.leaves → .input id other second ∈ e.leaves → ty = other

/-- The nodes that a run builds: recorded values are converted to the type of their node, slices
are proper parts of what is no slice and record its bytes, and assembled values have the size of
their type and parts that fit. -/
def WellShaped : Expr → Prop
  | .input _ ty value | .const ty value | .unary _ _ ty value | .binary _ _ _ ty value
  | .compare _ _ _ ty value => ty ≠ .struct ∧ ty.normalize value = value
  | .pointer .. => True
  | .slice whole offset bytes value =>
    0 < bytes.toNat ∧ IsFlat (.slice whole offset bytes value) ∧
      RecordsRoot (.slice whole offset bytes value)
  | .assemble ty size parts value =>
    ty ≠ .struct ∧ size.toNat = ty.size ∧ PartsFit size.toNat parts ∧ ty.normalize value = value

theorem recordsRoot_of_shaped {e : Expr} (shaped : e.WellShaped) : e.RecordsRoot := by
  cases e with
  | slice => exact shaped.2.2
  | _ => trivial

/-- The slice that is cut out of a well-shaped node is well shaped. -/
theorem wellShaped_cut {e : Expr} {offset bytes : Nat} (shaped : e.WellShaped) (flat : e.IsFlat)
    (nonempty : 0 < bytes) (inside : offset + bytes ≤ e.bytes)
    (part : ¬(offset = 0 ∧ bytes = e.bytes)) :
    WellShaped (.slice e.root (.ofNat 32 (e.start + offset)) (.ofNat 32 bytes)
      (byteRange e.root.value (e.start + offset) bytes)) := by
  have form : e.cut offset bytes =
      .slice e.root (.ofNat 32 (e.start + offset)) (.ofNat 32 bytes)
        (byteRange e.root.value (e.start + offset) bytes) := if_neg part
  have size := bytes_cut inside
  have flatCut := isFlat_cut flat inside
  have records := recordsRoot_cut (recordsRoot_of_shaped shaped) flat.isShallow inside
  rw [form] at size flatCut records
  exact ⟨Nat.lt_of_lt_of_eq nonempty size.symm, flatCut, records⟩

/-! ## Converted values -/

/-- The recorded value is converted to the type of the node. -/
def IsConverted (e : Expr) : Prop :=
  e.ty.normalize e.value = e.value

instance (e : Expr) : Decidable e.IsConverted :=
  inferInstanceAs (Decidable (_ = _))

/-- The unsigned type of a slice keeps byte ranges of that size. -/
theorem normalize_byteRange (whole : Expr) (offset bytes : BitVec 32) (recorded value : Value)
    (first : Nat) :
    (slice whole offset bytes recorded).ty.normalize (byteRange value first bytes.toNat) =
      byteRange value first bytes.toNat := by
  simp only [Expr.ty]
  cases found : CType.ofSize? bytes.toNat false with
  | none => rfl
  | some ty =>
    obtain ⟨size, unsigned⟩ := CType.size_of_ofSize? found
    obtain ⟨notBool, notStruct⟩ := CType.ofSize?_isUnsigned found
    rw [Option.getD_some, CType.normalize_eq_extend notBool notStruct, unsigned, CType.bits, size]
    exact zeroExtend_zeroExtend (8 * bytes.toNat) _

theorem WellShaped.isConverted {e : Expr} (shaped : e.WellShaped) : e.IsConverted := by
  cases e with
  | input id ty value | const ty value | unary op e ty value | binary op l r ty value
  | compare op l r ty value => exact shaped.2
  | pointer op l r size value => exact op.normalize_resultType value
  | slice whole offset bytes value =>
    have recorded : value = byteRange whole.value offset.toNat bytes.toNat := shaped.2.2
    rw [IsConverted, Expr.value, recorded]
    exact normalize_byteRange whole offset bytes _ _ _
  | assemble ty size parts value => exact shaped.2.2.2

theorem IsConverted.cut {e : Expr} {offset bytes : Nat} (converted : e.IsConverted)
    (inside : offset + bytes ≤ e.bytes) : (e.cut offset bytes).IsConverted := by
  have bound := e.bytes_lt
  have size : (BitVec.ofNat 32 bytes).toNat = bytes := Nat.mod_eq_of_lt (by omega)
  unfold Expr.cut
  split
  · exact converted
  · have kept := normalize_byteRange e.root (.ofNat 32 (e.start + offset)) (.ofNat 32 bytes)
      (byteRange e.root.value (e.start + offset) bytes) e.root.value (e.start + offset)
    rwa [size] at kept

/-- Evaluation gives converted values, as long as a leaf records one. -/
theorem normalize_evaluate {e : Expr} (own : e.ownLeaf ≠ none → e.IsConverted)
    (inputs : List Value) : e.ty.normalize (e.evaluate inputs) = e.evaluate inputs := by
  cases e with
  | input id ty value =>
    simp only [evaluate]
    split
    · exact ty.normalize_normalize _
    · exact own (by simp [ownLeaf])
  | const ty value => exact own (by simp [ownLeaf])
  | unary op e ty value => exact op.normalize_apply ty _ _
  | binary op l r ty value => exact op.normalize_apply ty _ _
  | compare op l r ty value => exact ty.normalize_normalize _
  | pointer op l r size value => exact op.normalize_resultType _
  | slice whole offset bytes value => exact normalize_byteRange ..
  | assemble ty size parts value =>
    simp only [evaluate]
    cases ty with
    | struct => rfl
    | _ => exact CType.normalize_normalize _ _

theorem IsConverted.normalize_evaluate {e : Expr} (converted : e.IsConverted)
    (inputs : List Value) : e.ty.normalize (e.evaluate inputs) = e.evaluate inputs :=
  Expr.normalize_evaluate (fun _ ↦ converted) inputs

/-! ## Conditions of branches -/

theorem condition_isComparison (e : Expr) : e.condition.isComparison = true := by
  unfold condition
  split
  · assumption
  · rfl

/-- The condition is true on the inputs on which the scalar is not zero. -/
theorem evaluate_condition {e : Expr} (own : e.ownLeaf ≠ none → e.IsConverted)
    (scalar : e.ty ≠ .struct) (inputs : List Value) :
    (e.condition.evaluate inputs != 0) = (e.evaluate inputs != 0) := by
  unfold condition
  split
  · rfl
  · have width : e.ty.bits ≤ max e.bits (mkConst e.ty 0).bits := Nat.le_max_right ..
    calc (CType.normalize .int (flag (CompareOp.apply .ne (max e.bits (mkConst e.ty 0).bits)
          (e.evaluate inputs) (e.ty.normalize 0))) != 0)
        = (flag (CompareOp.apply .ne (max e.bits (mkConst e.ty 0).bits)
          (e.evaluate inputs) (e.ty.normalize 0)) != 0) := by rw [CType.normalize_flag]
      _ = CompareOp.apply .ne (max e.bits (mkConst e.ty 0).bits) (e.evaluate inputs)
          (e.ty.normalize 0) := flag_ne_zero _
      _ = (e.evaluate inputs != 0) :=
        CompareOp.apply_ne_zero scalar (Expr.normalize_evaluate own inputs) width

/-! ## Canonical values -/

theorem slice_isSigned (whole : Expr) (offset bytes : BitVec 32) (value : Value) :
    (slice whole offset bytes value).isSigned = false := by
  show ((CType.ofSize? bytes.toNat false).getD .struct).isSigned = false
  cases found : CType.ofSize? bytes.toNat false with
  | none => rfl
  | some ty => exact (CType.size_of_ofSize? found).2

/-- Converted values are canonical for nodes that have the size of their type. -/
theorem isCanonical_of_normalize_eq {e : Expr} {ty : CType} {value : Value} (type : e.ty = ty)
    (size : e.bytes = ty.size) (scalar : ty ≠ .struct) (normal : ty.normalize value = value) :
    e.IsCanonical value := by
  rw [IsCanonical, isSigned, bits, type, size]
  exact CType.extend_of_normalize_eq scalar normal

theorem slice_isCanonical (whole : Expr) (offset bytes : BitVec 32) (recorded value : Value)
    (first : Nat) :
    (slice whole offset bytes recorded).IsCanonical (byteRange value first bytes.toNat) := by
  unfold IsCanonical
  rw [slice_isSigned]
  exact zeroExtend_zeroExtend (8 * bytes.toNat) _

theorem pointer_isCanonical (op : PointerOp) (l r : Expr) (size : BitVec 64)
    (recorded value : Value) : (pointer op l r size recorded).IsCanonical value :=
  isCanonical_of_normalize_eq rfl rfl op.resultType_ne_struct (op.normalize_resultType value)

/-- The value of an encodable node is canonical on all inputs. -/
theorem Encodable.isCanonical_evaluate {e : Expr} (encodable : e.Encodable)
    (inputs : List Value) : e.IsCanonical (e.evaluate inputs) := by
  cases e with
  | input id ty value =>
    refine isCanonical_of_normalize_eq rfl rfl encodable.1 ?_
    simp only [evaluate]
    split
    · exact ty.normalize_normalize _
    · exact encodable.2
  | const ty value => exact isCanonical_of_normalize_eq rfl rfl encodable.1 encodable.2
  | unary op e ty value =>
    exact isCanonical_of_normalize_eq rfl rfl encodable.1 (op.normalize_apply ty _ _)
  | binary op l r ty value =>
    exact isCanonical_of_normalize_eq rfl rfl encodable.1 (op.normalize_apply ty _ _)
  | compare op l r ty value =>
    exact isCanonical_of_normalize_eq rfl rfl encodable (ty.normalize_normalize _)
  | pointer op l r size value => exact pointer_isCanonical _ _ _ _ _ _
  | slice whole offset bytes value => exact slice_isCanonical _ _ _ _ _ _
  | assemble ty size parts value =>
    refine isCanonical_of_normalize_eq rfl encodable.2.2.1 encodable.1 ?_
    simp only [evaluate, (CType.isStruct_eq_false_iff ty).mpr encodable.1]
    exact ty.normalize_normalize _

/-- Encodable trees span at least one byte and at most eight. -/
theorem bytes_of_encodable {e : Expr} (all : Everywhere Encodable e) :
    0 < e.bytes ∧ e.bytes ≤ 8 := by
  induction all with
  | @node e here below ih =>
    cases e with
    | input id ty value | const ty value | unary op e ty value | binary op l r ty value =>
      exact ⟨CType.size_pos here.1, ty.size_le_eight⟩
    | compare op l r ty value => exact ⟨CType.size_pos here, ty.size_le_eight⟩
    | pointer op l r size value =>
      exact ⟨CType.size_pos op.resultType_ne_struct, op.resultType.size_le_eight⟩
    | slice whole offset bytes value =>
      have child := ih whole (by simp [children])
      obtain ⟨positive, inside⟩ := here
      simp only [Expr.bytes]
      omega
    | assemble ty size parts value =>
      have size_eq : (assemble ty size parts value).bytes = ty.size := here.2.2.1
      rw [size_eq]
      exact ⟨CType.size_pos here.1, ty.size_le_eight⟩

theorem bits_of_encodable {e : Expr} (all : Everywhere Encodable e) :
    0 < e.bits ∧ e.bits ≤ 64 := by
  have bytes := bytes_of_encodable all
  unfold bits
  omega

end Concolic.Expr
