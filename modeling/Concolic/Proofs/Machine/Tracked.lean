import Concolic.Machine.Step
import Concolic.Proofs.Expr.WellFormed
import Concolic.Proofs.Memory.Freshness

/-!
# Tracked expressions

An expression is tracked by a run when every node of it is well shaped, records the value that its
children and the inputs of the run give it, and is an input only where the run has asked for one of
that type.  Tracked expressions evaluate to their recorded values on the inputs of the run, and
everything that the machine builds from tracked operands is tracked.
-/

namespace Concolic

open Concolic.Expr

/-- What holds of every node that a run builds. -/
structure Sound (admissible : CType → Prop) (inputs : List Value) (vars : WordMap 32 CType)
    (node : Expr) : Prop where
  shaped : node.WellShaped
  recorded : node.recomputed = node.value
  admitted : admissible node.ty
  known : ∀ id ty value, node = .input id ty value →
    vars.get? id = some ty ∧ evaluate inputs (.input id ty value) = value

def Tracked (admissible : CType → Prop) (inputs : List Value) (vars : WordMap 32 CType) :
    Expr → Prop :=
  Everywhere (Sound admissible inputs vars)

/-- A scalar that has the size of its type. -/
def Expr.IsScalar (e : Expr) : Prop :=
  e.ty ≠ .struct ∧ e.bytes = e.ty.size

namespace Tracked

variable {admissible : CType → Prop} {inputs : List Value} {vars : WordMap 32 CType} {e : Expr}

theorem isConsistent (tracked : Tracked admissible inputs vars e) : e.isConsistent = true :=
  (isConsistent_iff_everywhere e).mpr (tracked.mono fun _ sound ↦ sound.recorded)

/-- A tracked expression evaluates to its recorded value on the inputs of the run. -/
theorem evaluate_eq_value (tracked : Tracked admissible inputs vars e) :
    e.evaluate inputs = e.value := by
  refine Expr.evaluate_eq_value (tracked.mono fun _ sound ↦ sound.recorded) ?_
  refine (everywhere_input_iff e).mp (tracked.mono fun node sound id ty value same ↦ ?_)
  exact (sound.known id ty value same).2

theorem weaken {others : WordMap 32 CType} (tracked : Tracked admissible inputs vars e)
    (grown : ∀ id ty, vars.get? id = some ty → others.get? id = some ty) :
    Tracked admissible inputs others e :=
  tracked.mono fun _ sound ↦ ⟨sound.shaped, sound.recorded, sound.admitted,
    fun id ty value same ↦ ⟨grown id ty (sound.known id ty value same).1,
      (sound.known id ty value same).2⟩⟩

section Closure

variable (usual : ∀ ty, ty ≠ .bool → admissible ty)

include usual

theorem cut_closed : CutClosed (Tracked admissible inputs vars) := by
  intro e offset bytes flat tracked nonempty inside
  refine everywhere_cut tracked fun part ↦ ?_
  have shaped := wellShaped_cut tracked.here.shaped flat nonempty inside part
  refine ⟨shaped, shaped.2.2.symm, usual _ ?_, fun id ty value same ↦ ?_⟩
  · simp only [Expr.ty]
    cases found : CType.ofSize? (BitVec.ofNat 32 bytes).toNat false with
    | none => decide
    | some ty => exact (CType.ofSize?_isUnsigned found).1
  · cases same

omit usual in
theorem tracked_unary (op : UnaryOp) {ty : CType} {value : Value} (scalar : ty ≠ .struct)
    (admitted : admissible ty) (applied : value = op.apply ty e.bits e.value)
    (operand : Tracked admissible inputs vars e) :
    Tracked admissible inputs vars (.mkUnary op e ty value) := by
  have normal : ty.normalize value = value := by
    rw [applied]
    exact op.normalize_apply ty _ _
  refine (everywhere_unary ..).mpr ⟨⟨⟨scalar, ?_⟩, ?_, admitted, ?_⟩, operand⟩
  · exact ty.normalize_normalize value
  · rw [normal]
    exact applied.symm
  · intro id ty value same
    cases same

omit usual in
theorem tracked_convert {ty : CType} (admitted : admissible ty) (scalar : ty ≠ .struct)
    (tracked : Tracked admissible inputs vars e) :
    Tracked admissible inputs vars (Memory.convert e ty) := by
  unfold Memory.convert
  split
  · exact tracked
  · exact tracked_unary _ scalar admitted rfl tracked

end Closure

theorem tracked_assemble {ty : CType} {parts : List (BitVec 32 × Expr)} {value : Value}
    (admitted : admissible ty) (scalar : ty ≠ .struct) (normal : ty.normalize value = value)
    (fit : PartsFit ty.size parts)
    (each : ∀ part ∈ parts, Tracked admissible inputs vars part.2 ∧
      Memory.isFresh value part = true) :
    Tracked admissible inputs vars (.assemble ty (.ofNat 32 ty.size) parts value) := by
  have size := Memory.size_ofNat ty
  refine (everywhere_assemble ..).mpr
    ⟨⟨⟨scalar, size, size.symm ▸ fit, normal⟩, ?_, admitted, ?_⟩, fun part member ↦
      (each part member).1⟩
  · rw [recomputed_eq_nodeValue, nodeValue, (CType.isStruct_eq_false_iff ty).mpr scalar,
      if_neg Bool.false_ne_true,
      Memory.layParts_of_fresh ty.size_le_eight fit fun part member ↦ (each part member).2]
    exact normal
  · intro id ty value same
    cases same

/-- Reading from memory keeps expressions tracked. -/
theorem readClosed (usual : ∀ ty, ty ≠ .bool → admissible ty) :
    Memory.ReadClosed admissible (Tracked admissible inputs vars) where
  cut := cut_closed usual
  convert _ _ admitted scalar _ tracked := tracked_convert admitted scalar tracked
  assemble _ _ _ admitted scalar normal fit each :=
    tracked_assemble admitted scalar normal fit each

/-! ## Nodes of operators -/

theorem tracked_const {ty : CType} {value : Value} (scalar : ty ≠ .struct)
    (admitted : admissible ty) : Tracked admissible inputs vars (.mkConst ty value) := by
  refine (everywhere_leaf rfl).mpr ⟨⟨scalar, ty.normalize_normalize value⟩, rfl, admitted, ?_⟩
  intro id ty value same
  cases same

theorem tracked_input {id : InputId} {ty : CType} {entry : Value} (scalar : ty ≠ .struct)
    (admitted : admissible ty) (asked : vars.get? id = some ty)
    (given : inputs[id.toNat]? = some entry) :
    Tracked admissible inputs vars (.mkInput id ty (ty.normalize entry)) := by
  refine (everywhere_leaf rfl).mpr
    ⟨⟨scalar, ty.normalize_normalize _⟩, rfl, admitted, ?_⟩
  intro id ty value same
  cases same
  refine ⟨asked, ?_⟩
  simp only [evaluate, given, CType.normalize_normalize]

variable {l r : Expr}

theorem tracked_binary (op : BinaryOp) {ty : CType} {value : Value} (scalar : ty ≠ .struct)
    (admitted : admissible ty) (applied : value = op.apply ty l.value r.value)
    (left : Tracked admissible inputs vars l) (right : Tracked admissible inputs vars r) :
    Tracked admissible inputs vars (.mkBinary op l r ty value) := by
  have normal : ty.normalize value = value := by
    rw [applied]
    exact op.normalize_apply ty _ _
  refine (everywhere_binary ..).mpr ⟨⟨⟨scalar, ?_⟩, ?_, admitted, ?_⟩, left, right⟩
  · exact ty.normalize_normalize value
  · rw [normal]
    exact applied.symm
  · intro id ty value same
    cases same

theorem tracked_compare (op : CompareOp) {ty : CType} {value : Value} (scalar : ty ≠ .struct)
    (admitted : admissible ty)
    (applied : value = flag (op.apply (max l.bits r.bits) l.value r.value))
    (left : Tracked admissible inputs vars l) (right : Tracked admissible inputs vars r) :
    Tracked admissible inputs vars (.mkCompare op l r ty value) := by
  refine (everywhere_compare ..).mpr ⟨⟨⟨scalar, ?_⟩, ?_, admitted, ?_⟩, left, right⟩
  · exact ty.normalize_normalize value
  · rw [applied]
    rfl
  · intro id ty value same
    cases same

theorem tracked_pointer (op : PointerOp) {size : BitVec 64} {value : Value}
    (admitted : admissible op.resultType) (applied : value = op.apply size l.value r.value)
    (left : Tracked admissible inputs vars l) (right : Tracked admissible inputs vars r) :
    Tracked admissible inputs vars (.mkPointer op l r size value) := by
  refine (everywhere_pointer ..).mpr ⟨⟨trivial, ?_, admitted, ?_⟩, left, right⟩
  · rw [op.normalize_resultType]
    exact applied.symm
  · intro id ty value same
    cases same

/-- The condition of a branch on a tracked scalar is tracked, and true where the scalar is not
zero. -/
theorem tracked_condition (usual : ∀ ty, ty ≠ .bool → admissible ty) (scalar : e.IsScalar)
    (tracked : Tracked admissible inputs vars e) :
    Tracked admissible inputs vars e.condition ∧
      (e.condition.value != 0) = (e.value != 0) := by
  unfold condition
  split
  · exact ⟨tracked, rfl⟩
  · have normal := tracked.here.shaped.isConverted
    constructor
    · refine tracked_compare .ne (by decide) (usual _ (by decide)) ?_ tracked
        (tracked_const scalar.1 tracked.here.admitted)
      exact congrArg flag (CompareOp.apply_ne_zero scalar.1 normal (Nat.le_max_right ..)).symm
    · calc (CType.normalize .int (flag (e.value != 0)) != 0)
          = (flag (e.value != 0) != 0) := by rw [CType.normalize_flag]
        _ = (e.value != 0) := flag_ne_zero _

end Tracked

end Concolic
