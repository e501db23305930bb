import Concolic.Proofs.Machine.Honest
import Concolic.Proofs.Machine.Typed

/-!
# Plain operands beside symbolic ones

A plain operand beside a symbolic one becomes a constant: of the type of the result under a binary
operator, of the type of the other operand in a comparison, and of the type of an address or a
distance in pointer arithmetic.  Where that type keeps the value, the new node records what the
operator makes of the values recorded below it.  A constant that is wider than the other side of a
comparison, or that becomes a `bool` without being one, may lose its value.
-/

namespace Concolic

open Concolic.Expr (Everywhere FitsType)

/-- A value of the one type is the same number at the other. -/
structure CType.KeptBy (source target : CType) : Prop where
  narrow : source.size ≤ target.size
  truth : target = .bool → source = .bool

instance (source target : CType) : Decidable (source.KeptBy target) :=
  decidable_of_iff (source.size ≤ target.size ∧ (target = .bool → source = .bool))
    ⟨fun ⟨narrow, truth⟩ ↦ ⟨narrow, truth⟩, fun ⟨narrow, truth⟩ ↦ ⟨narrow, truth⟩⟩

/-- The event tells what its operator makes of the recorded values.  A comparison looks at the
width of the wider operand. -/
def Event.AppliesTo (lhs rhs : Operand) : Event → Prop
  | .binary _ op ty value => value = op.apply ty lhs.value rhs.value
  | .compare _ op _ value =>
    value = flag (op.apply (max lhs.bits rhs.bits) lhs.value rhs.value)
  | .pointer _ op size value => value = op.apply size lhs.value rhs.value
  | _ => False

/-- The constant that stands for a plain operand keeps what the operator reads of it. -/
def Event.KeepsConstants (lhs rhs : Operand) : Event → Prop
  | .binary _ _ ty _ =>
    ∀ operand ∈ [lhs, rhs], operand.isSymbolic = false → ty = .bool → operand.ty = .bool
  | .compare .. =>
    (lhs.isSymbolic = false → lhs.ty.KeptBy rhs.ty) ∧
      (rhs.isSymbolic = false → rhs.ty.KeptBy lhs.ty)
  | _ => True

namespace Operand

variable {operand lhs rhs : Operand} {ty : CType} {typed : TypedValue} {e : Expr}

/-- A plain operand keeps its value at its own type, and in the place of an aggregate. -/
theorem value_lift_of_same
    (fits : operand.Satisfies TypedValue.IsConverted (Everywhere FitsType))
    (same : operand.isSymbolic = false → ty = .struct ∨ operand.ty = ty) :
    (operand.lift ty).value = operand.value := by
  cases operand with
  | symbolic e => rfl
  | concrete typed =>
    rcases same rfl with rfl | own
    · exact fits
    · rw [Operand.ty] at own
      rw [lift, own, ite_self]
      exact own ▸ fits

/-- Operators of a type see no difference between plain operands and their constants. -/
theorem apply_lift (op : BinaryOp)
    (left : lhs.Satisfies TypedValue.IsConverted (Everywhere FitsType))
    (right : rhs.Satisfies TypedValue.IsConverted (Everywhere FitsType))
    (kept : ∀ operand ∈ [lhs, rhs],
      operand.isSymbolic = false → ty = .bool → operand.ty = .bool) :
    op.apply ty (lhs.lift ty).value (rhs.lift ty).value = op.apply ty lhs.value rhs.value := by
  by_cases special : ty = .struct ∨ ty = .bool
  · have same (operand : Operand) (member : operand ∈ [lhs, rhs])
        (plain : operand.isSymbolic = false) : ty = .struct ∨ operand.ty = ty :=
      special.imp_right fun truth ↦ (kept operand member plain truth).trans truth.symm
    rw [value_lift_of_same left (same lhs (by simp)),
      value_lift_of_same right (same rhs (by simp))]
  · obtain ⟨scalar, notBool⟩ := not_or.mp special
    exact op.apply_congr notBool scalar (setWidth_value_lift notBool scalar lhs)
      (setWidth_value_lift notBool scalar rhs)

/-- A constant that its type keeps fills the width of the expression beside it, with the low bits
of the plain operand. -/
theorem constant_beside (fits : typed.IsConverted) (fitsBeside : FitsType e)
    (scalar : typed.ty ≠ .struct) (scalarBeside : e.ty ≠ .struct) (kept : typed.ty.KeptBy e.ty) :
    (Expr.mkConst e.ty typed.value).bits = e.bits ∧ (Operand.concrete typed).bits ≤ e.bits ∧
      (Expr.mkConst e.ty typed.value).value.setWidth e.bits = typed.value.setWidth e.bits := by
  have width : e.bits = e.ty.bits := congrArg (8 * ·) (fitsBeside.size scalarBeside)
  rw [width]
  refine ⟨rfl, ?_, ?_⟩
  · have bytes : (Operand.concrete typed).bits = 8 * typed.ty.size :=
      congrArg (8 * ·) (Memory.bytes_of_scalar scalar)
    rw [bytes]
    exact Nat.mul_le_mul_left 8 kept.narrow
  · by_cases truth : e.ty = .bool
    · have same : (Expr.mkConst e.ty typed.value).value = typed.value := by
        rw [truth, ← kept.truth truth]
        exact fits
      rw [same]
    · exact CType.setWidth_normalize truth typed.value

/-- Comparisons see no difference between a plain operand and its constant. -/
theorem compare_lift (op : CompareOp)
    (left : lhs.Satisfies TypedValue.IsConverted (Everywhere FitsType))
    (right : rhs.Satisfies TypedValue.IsConverted (Everywhere FitsType))
    (scalarLeft : lhs.ty ≠ .struct) (scalarRight : rhs.ty ≠ .struct)
    (symbolic : lhs.isSymbolic = true ∨ rhs.isSymbolic = true)
    (keptLeft : lhs.isSymbolic = false → lhs.ty.KeptBy rhs.ty)
    (keptRight : rhs.isSymbolic = false → rhs.ty.KeptBy lhs.ty) :
    op.apply (max (lhs.lift rhs.ty).bits (rhs.lift lhs.ty).bits) (lhs.lift rhs.ty).value
        (rhs.lift lhs.ty).value =
      op.apply (max lhs.bits rhs.bits) lhs.value rhs.value := by
  have wide {e : Expr} (fits : FitsType e) (scalar : e.ty ≠ .struct) :
      0 < e.bits ∧ e.bits ≤ 64 := by
    have width : e.bits = e.ty.bits := congrArg (8 * ·) (fits.size scalar)
    exact width ▸ ⟨CType.bits_pos scalar, e.ty.bits_le⟩
  cases lhs with
  | symbolic l =>
    cases rhs with
    | symbolic r => rfl
    | concrete typed =>
      obtain ⟨width, narrow, low⟩ :=
        constant_beside right left.here scalarRight scalarLeft (keptRight rfl)
      obtain ⟨positive, bounded⟩ := wide left.here scalarLeft
      rw [lift_concrete scalarLeft]
      change op.apply (max l.bits (Expr.mkConst l.ty typed.value).bits) l.value _ =
        op.apply (max l.bits (concrete typed).bits) l.value typed.value
      rw [width, Nat.max_self, Nat.max_eq_left narrow, op.apply_eq_holds _ _ positive bounded,
        op.apply_eq_holds _ _ positive bounded]
      exact congrArg (op.holds _) low
  | concrete typed =>
    cases rhs with
    | concrete other => simp [isSymbolic] at symbolic
    | symbolic r =>
      obtain ⟨width, narrow, low⟩ :=
        constant_beside left right.here scalarLeft scalarRight (keptLeft rfl)
      obtain ⟨positive, bounded⟩ := wide right.here scalarRight
      rw [lift_concrete scalarRight]
      change op.apply (max (Expr.mkConst r.ty typed.value).bits r.bits) _ r.value =
        op.apply (max (concrete typed).bits r.bits) typed.value r.value
      rw [width, Nat.max_self, Nat.max_eq_right narrow, op.apply_eq_holds _ _ positive bounded,
        op.apply_eq_holds _ _ positive bounded]
      exact congrArg (op.holds · _) low

end Operand

namespace Machine

variable {machine : Machine} {lhs rhs : Operand} {rest : List Operand} {id : InstructionId}
  {ty : CType} {value : Value}

theorem onTwo_of_stack (combine : Operand → Operand → Operand)
    (active : machine.awaitingInput = false) (stack : machine.stack = rhs :: lhs :: rest) :
    machine.onTwo id combine =
      .ok { machine := { machine with stack := combine lhs rhs :: rest } } := by
  simp only [onTwo, active, pop, stack, ok_bind]
  rfl

/-- After the first input, an operator with a symbolic operand pushes a node that records what the
operator makes of the values recorded below it, as long as the constants of plain operands keep
their values. -/
theorem run_pushes_consistent {policy : PointerPolicy} {inputs : List Value}
    {events : List Event} {event : Event}
    (ran : (start policy inputs).run events = .ok machine)
    (active : machine.awaitingInput = false) (stack : machine.stack = rhs :: lhs :: rest)
    (scalarLeft : lhs.ty ≠ .struct) (scalarRight : rhs.ty ≠ .struct)
    (symbolic : lhs.isSymbolic = true ∨ rhs.isSymbolic = true)
    (applies : event.AppliesTo lhs rhs) (kept : event.KeepsConstants lhs rhs) :
    ∃ step e, machine.step event = .ok step ∧ step.machine.stack = .symbolic e :: rest ∧
      e.recomputed = e.value := by
  have fits := (fitsType_run ran).stack
  have left := fits lhs (by simp [stack])
  have right := fits rhs (by simp [stack])
  have lifted : (lhs.isSymbolic || rhs.isSymbolic) = true := by simpa using symbolic
  cases event with
  | binary id op ty value =>
    have stepped : machine.step (.binary id op ty value) =
        .ok { machine := { machine with stack := applyBinary op lhs rhs ty value :: rest } } :=
      onTwo_of_stack (applyBinary op · · ty value) active stack
    have pushed : applyBinary op lhs rhs ty value =
        .symbolic (.mkBinary op (lhs.lift ty) (rhs.lift ty) ty value) := if_pos lifted
    have applied : value = op.apply ty lhs.value rhs.value := applies
    refine ⟨_, _, stepped, congrArg (· :: rest) pushed, ?_⟩
    rw [applied, Expr.mkBinary, Expr.recomputed, Expr.value, op.normalize_apply]
    exact Operand.apply_lift op left right kept
  | compare id op ty value =>
    have stepped : machine.step (.compare id op ty value) =
        .ok { machine := { machine with stack := applyCompare op lhs rhs ty value :: rest } } :=
      onTwo_of_stack (applyCompare op · · ty value) active stack
    have pushed : applyCompare op lhs rhs ty value =
        .symbolic (.mkCompare op (lhs.lift rhs.ty) (rhs.lift lhs.ty) ty value) := if_pos lifted
    have applied : value = flag (op.apply (max lhs.bits rhs.bits) lhs.value rhs.value) := applies
    refine ⟨_, _, stepped, congrArg (· :: rest) pushed, ?_⟩
    rw [applied, Expr.mkCompare, Expr.recomputed, Expr.value]
    exact congrArg (ty.normalize <| flag ·) (Operand.compare_lift op left right scalarLeft
      scalarRight symbolic kept.1 kept.2)
  | pointer id op size value =>
    have stepped : machine.step (.pointer id op size value) =
        .ok { machine := { machine with stack := applyPointer op lhs rhs size value :: rest } } :=
      onTwo_of_stack (applyPointer op · · size value) active stack
    have pushed : applyPointer op lhs rhs size value =
        .symbolic (.mkPointer op (lhs.lift .pointer) (rhs.lift op.rightType) size value) :=
      if_pos lifted
    have applied : value = op.apply size lhs.value rhs.value := applies
    have scalar : op.rightType ≠ .struct := by cases op <;> decide
    have wide : op.rightType.size = 8 := by cases op <;> rfl
    refine ⟨_, _, stepped, congrArg (· :: rest) pushed, ?_⟩
    rw [applied, Expr.mkPointer, Expr.recomputed, Expr.value, op.normalize_resultType,
      Operand.value_lift_of_size_eq_eight rfl (by decide),
      Operand.value_lift_of_size_eq_eight wide scalar]
  | _ => exact applies.elim

/-- An input read back, a constant of its own type above it. -/
def besideEvents : List Event :=
  [.newInput .int 4096, .load 1 4096 .int 0, .load 2 8192 .char 0]

theorem run_pushes_consistent_narrow :
    ∃ machine lhs rhs, (start .forget [0]).run besideEvents = .ok machine ∧
      machine.awaitingInput = false ∧ machine.stack = [rhs, lhs] ∧
      lhs.isSymbolic = true ∧ rhs.isSymbolic = false ∧
      Event.AppliesTo lhs rhs (.compare 3 .eq .int 1) ∧
      Event.KeepsConstants lhs rhs (.compare 3 .eq .int 1) ∧
      ∃ step e, machine.step (.compare 3 .eq .int 1) = .ok step ∧
        step.machine.stack = [.symbolic e] ∧ e.recomputed = e.value := by
  let lhs : Operand := .symbolic (.mkInput 0 .int 0)
  let rhs : Operand := .concrete (.of .char 0)
  have applies : Event.AppliesTo lhs rhs (.compare 3 .eq .int 1) := by rfl
  have kept : Event.KeepsConstants lhs rhs (.compare 3 .eq .int 1) := by
    exact ⟨fun plain ↦ Bool.noConfusion plain, fun _ ↦ by decide⟩
  obtain ⟨machine, ran, active, stack⟩ : ∃ machine, (start .forget [0]).run besideEvents =
      .ok machine ∧ machine.awaitingInput = false ∧ machine.stack = [rhs, lhs] := ⟨_, rfl, rfl, rfl⟩
  refine ⟨machine, lhs, rhs, ran, active, stack, rfl, rfl, applies, kept, ?_⟩
  exact run_pushes_consistent ran active stack (by decide) (by decide) (.inl rfl) applies kept

/-- An input read back, and above it a constant whose low half is zero. -/
def wideBesideEvents : List Event :=
  [.newInput .int 4096, .load 1 4096 .int 0, .load 2 8192 .ulong 0x100000000]

/-- Compared with a narrower operand, a constant is cut to the width of that operand: zero differs
from 2 ^ 32, and the comparison pushed makes them equal. -/
theorem not_run_pushes_consistent_wide :
    ¬∀ (policy : PointerPolicy) (inputs : List Value) (events : List Event) (event : Event)
      (machine : Machine) (lhs rhs : Operand) (rest : List Operand),
      (start policy inputs).run events = .ok machine → machine.awaitingInput = false →
      machine.stack = rhs :: lhs :: rest → lhs.ty ≠ .struct → rhs.ty ≠ .struct →
      (lhs.isSymbolic = true ∨ rhs.isSymbolic = true) → event.AppliesTo lhs rhs →
      ∃ step e, machine.step event = .ok step ∧ step.machine.stack = .symbolic e :: rest ∧
        e.recomputed = e.value := by
  intro claim
  let lhs : Operand := .symbolic (.mkInput 0 .int 0)
  let rhs : Operand := .concrete (.of .ulong 0x100000000)
  obtain ⟨step, e, stepped, stack, consistent⟩ :=
    claim .forget [0] wideBesideEvents (.compare 3 .eq .int 0) _ lhs rhs [] rfl rfl rfl (by decide)
      (by decide) (.inl rfl) rfl
  cases stepped
  cases stack
  exact absurd consistent (by decide)

end Machine

end Concolic
