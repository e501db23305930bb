import Concolic.Proofs.Machine.Numbers
import Concolic.Proofs.Machine.Tracked

/-!
# Honest runs

A run is honest when the events tell of the operators what the operators do to the recorded values
of their operands, and of the branches what the recorded values decide.  Values that are read from
memory or returned are not restricted.  On every honest run all expressions stay tracked: those on
the stack, in memory and in the constraints.
-/

namespace Concolic

def Operand.bits (operand : Operand) : Nat :=
  8 * operand.bytes

/-- The type that an event gives to a value. -/
def Event.type? : Event → Option CType
  | .newInput ty _ | .load _ _ ty _ | .deref _ _ ty _ | .unary _ _ ty _ | .binary _ _ ty _
  | .compare _ _ ty _ | .untracked _ ty _ | .takeResult _ ty _ => some ty
  | _ => none

/-! ## Operands -/

namespace Operand

variable {admissible : CType → Prop} {inputs : List Value} {vars : WordMap 32 CType}
  {operand lhs rhs : Operand} {ty : CType}

/-- The value of a scalar operand is converted to its type. -/
theorem normalize_value (formed : operand.Formed (Tracked admissible inputs vars))
    (scalar : operand.ty ≠ .struct) : operand.ty.normalize operand.value = operand.value := by
  cases formed with
  | concrete normal => exact normal
  | scalar flat scalar sized tracked => exact tracked.here.shaped.isConverted
  | region fit flat holds => exact absurd rfl scalar

theorem bits_of_scalar (formed : operand.Formed (Tracked admissible inputs vars))
    (scalar : operand.ty ≠ .struct) : operand.bits = operand.ty.bits := by
  cases formed with
  | @concrete typed normal => exact congrArg (8 * ·) (Memory.bytes_of_scalar scalar)
  | scalar flat scalar sized tracked => exact congrArg (8 * ·) sized
  | region fit flat holds => exact absurd rfl scalar

theorem holds_of_symbolic {P : Expr → Prop} {e : Expr} (formed : Formed P (.symbolic e))
    (scalar : e.ty ≠ .struct) : P e ∧ e.IsScalar := by
  cases formed with
  | scalar flat scalar sized holds => exact ⟨holds, scalar, sized⟩
  | region fit flat holds => exact absurd rfl scalar

theorem lift_concrete (scalar : ty ≠ .struct) (typed : TypedValue) :
    (Operand.concrete typed).lift ty = .mkConst ty typed.value := by
  rw [lift, (CType.isStruct_eq_false_iff ty).mpr scalar, if_neg Bool.false_ne_true]

/-- A plain value becomes a constant of a scalar type, anything else stays as it is. -/
theorem tracked_lift (formed : operand.Formed (Tracked admissible inputs vars))
    (scalarOperand : operand.ty ≠ .struct) (scalar : ty ≠ .struct)
    (admitted : operand.isSymbolic = false → admissible ty) :
    Tracked admissible inputs vars (operand.lift ty) := by
  cases operand with
  | symbolic e => exact (holds_of_symbolic formed scalarOperand).1
  | concrete typed =>
    rw [lift_concrete scalar]
    exact Tracked.tracked_const scalar (admitted rfl)

/-- Lifting keeps the bits that an operator of the type reads. -/
theorem setWidth_value_lift (notBool : ty ≠ .bool) (scalar : ty ≠ .struct) (operand : Operand) :
    (operand.lift ty).value.setWidth ty.bits = operand.value.setWidth ty.bits := by
  cases operand with
  | symbolic e => rfl
  | concrete typed =>
    rw [lift_concrete scalar]
    exact CType.setWidth_normalize notBool typed.value

/-- Lifting to its own type keeps the value and the width of an operand. -/
theorem lift_own (formed : operand.Formed (Tracked admissible inputs vars))
    (scalar : operand.ty ≠ .struct) (own : operand.isSymbolic = true ∨ ty = operand.ty) :
    (operand.lift ty).value = operand.value ∧ (operand.lift ty).bits = operand.bits := by
  cases operand with
  | symbolic e => exact ⟨rfl, rfl⟩
  | concrete typed =>
    have same : ty = typed.ty := own.resolve_left (by simp [isSymbolic])
    subst same
    have bits := bits_of_scalar formed scalar
    have lifted : (Operand.concrete typed).lift typed.ty = .mkConst typed.ty typed.value :=
      lift_concrete scalar typed
    rw [lifted]
    exact ⟨normalize_value formed scalar, bits.symm⟩

theorem value_lift_of_size_eq_eight (wide : ty.size = 8) (scalar : ty ≠ .struct)
    (operand : Operand) : (operand.lift ty).value = operand.value := by
  cases operand with
  | symbolic e => rfl
  | concrete typed =>
    rw [lift_concrete scalar]
    exact CType.normalize_of_size_eq_eight wide typed.value

end Operand

namespace Machine

section Operators

variable {admissible : CType → Prop} {inputs : List Value} {vars : WordMap 32 CType}
  {operand lhs rhs : Operand} {ty : CType} {value : Value}

/-- A new input is an operand over the declarations that it joins. -/
theorem formed_mkInput {count : Nat} (numbered : count < 2 ^ 32) {entry : Value}
    (scalar : ty ≠ .struct) (admitted : admissible ty) (given : inputs[count]? = some entry)
    (vars : WordMap 32 CType) :
    (Operand.symbolic (.mkInput (.ofNat 32 count) ty (ty.normalize entry))).Formed
      (Tracked admissible inputs (vars.insert (.ofNat 32 count) ty)) := by
  have number : (BitVec.ofNat 32 count).toNat = count := Nat.mod_eq_of_lt numbered
  have declared : (vars.insert (.ofNat 32 count) ty).get? (.ofNat 32 count) = some ty := by
    rw [WordMap.get?_insert, if_pos rfl]
  exact .scalar trivial scalar rfl
    (Tracked.tracked_input scalar admitted declared (by rwa [number]))

theorem formed_applyUnary (op : UnaryOp)
    (formed : operand.Formed (Tracked admissible inputs vars))
    (scalarOperand : operand.ty ≠ .struct) (scalar : ty ≠ .struct) (admitted : admissible ty)
    (applied : operand.isSymbolic = true → value = op.apply ty operand.bits operand.value) :
    (applyUnary op operand ty value).Formed (Tracked admissible inputs vars) := by
  cases operand with
  | concrete typed => exact formed_concrete _ ty value
  | symbolic e =>
    have tracked := (Operand.holds_of_symbolic formed scalarOperand).1
    exact .scalar trivial scalar rfl
      (Tracked.tracked_unary op scalar admitted (applied rfl) tracked)

theorem formed_applyBinary (op : BinaryOp)
    (left : lhs.Formed (Tracked admissible inputs vars))
    (right : rhs.Formed (Tracked admissible inputs vars))
    (scalarLeft : lhs.ty ≠ .struct) (scalarRight : rhs.ty ≠ .struct) (scalar : ty ≠ .struct)
    (notBool : ty ≠ .bool) (admitted : admissible ty)
    (applied : lhs.isSymbolic = true ∨ rhs.isSymbolic = true →
      value = op.apply ty lhs.value rhs.value) :
    (applyBinary op lhs rhs ty value).Formed (Tracked admissible inputs vars) := by
  unfold applyBinary
  split
  · next symbolic =>
    refine .scalar trivial scalar rfl (Tracked.tracked_binary op scalar admitted ?_
      (Operand.tracked_lift left scalarLeft scalar fun _ ↦ admitted)
      (Operand.tracked_lift right scalarRight scalar fun _ ↦ admitted))
    rw [applied (by simpa using symbolic)]
    exact op.apply_congr notBool scalar (Operand.setWidth_value_lift notBool scalar lhs).symm
      (Operand.setWidth_value_lift notBool scalar rhs).symm
  · exact formed_concrete _ ty value

theorem formed_applyCompare (op : CompareOp)
    (left : lhs.Formed (Tracked admissible inputs vars))
    (right : rhs.Formed (Tracked admissible inputs vars))
    (scalarLeft : lhs.ty ≠ .struct) (scalarRight : rhs.ty ≠ .struct) (scalar : ty ≠ .struct)
    (admitted : admissible ty)
    (applied : lhs.isSymbolic = true ∨ rhs.isSymbolic = true →
      value = flag (op.apply (max lhs.bits rhs.bits) lhs.value rhs.value))
    (mixed : lhs.isSymbolic ≠ rhs.isSymbolic → lhs.ty = rhs.ty) :
    (applyCompare op lhs rhs ty value).Formed (Tracked admissible inputs vars) := by
  unfold applyCompare
  split
  · next symbolic =>
    have some_symbolic : lhs.isSymbolic = true ∨ rhs.isSymbolic = true := by simpa using symbolic
    have ownLeft : lhs.isSymbolic = true ∨ rhs.ty = lhs.ty := by
      cases here : lhs.isSymbolic
      · exact .inr (mixed (by simp_all)).symm
      · exact .inl rfl
    have ownRight : rhs.isSymbolic = true ∨ lhs.ty = rhs.ty := by
      cases here : rhs.isSymbolic
      · exact .inr (mixed (by simp_all))
      · exact .inl rfl
    have typeOf {operand : Operand} (formed : operand.Formed (Tracked admissible inputs vars))
        (isScalar : operand.ty ≠ .struct) (isSymbolic : operand.isSymbolic = true) :
        admissible operand.ty := by
      cases operand with
      | concrete typed => contradiction
      | symbolic e => exact (Operand.holds_of_symbolic formed isScalar).1.here.admitted
    refine .scalar trivial scalar rfl (Tracked.tracked_compare op scalar admitted ?_
      (Operand.tracked_lift left scalarLeft scalarRight fun plain ↦
        typeOf right scalarRight (some_symbolic.resolve_left (by simp [plain])))
      (Operand.tracked_lift right scalarRight scalarLeft fun plain ↦
        typeOf left scalarLeft (some_symbolic.resolve_right (by simp [plain]))))
    obtain ⟨valueLeft, bitsLeft⟩ := Operand.lift_own left scalarLeft ownLeft
    obtain ⟨valueRight, bitsRight⟩ := Operand.lift_own right scalarRight ownRight
    rw [applied some_symbolic, valueLeft, valueRight, bitsLeft, bitsRight]
  · exact formed_concrete _ ty value

theorem formed_applyPointer (op : PointerOp) (usual : ∀ ty, ty ≠ .bool → admissible ty)
    {size : BitVec 64}
    (left : lhs.Formed (Tracked admissible inputs vars))
    (right : rhs.Formed (Tracked admissible inputs vars))
    (scalarLeft : lhs.ty ≠ .struct) (scalarRight : rhs.ty ≠ .struct)
    (applied : lhs.isSymbolic = true ∨ rhs.isSymbolic = true →
      value = op.apply size lhs.value rhs.value) :
    (applyPointer op lhs rhs size value).Formed (Tracked admissible inputs vars) := by
  have scalarType : op.rightType ≠ .struct := by cases op <;> decide
  have wideRight : op.rightType.size = 8 := by cases op <;> rfl
  unfold applyPointer
  split
  · next symbolic =>
    refine .scalar trivial op.resultType_ne_struct rfl (Tracked.tracked_pointer op
      (usual _ (by cases op <;> decide)) ?_
      (Operand.tracked_lift left scalarLeft (by decide) fun _ ↦ usual _ (by decide))
      (Operand.tracked_lift right scalarRight scalarType fun _ ↦
        usual _ (by cases op <;> decide)))
    rw [applied (by simpa using symbolic),
      Operand.value_lift_of_size_eq_eight rfl (by decide),
      Operand.value_lift_of_size_eq_eight wideRight scalarType]
  · exact formed_concrete _ _ value

end Operators

/-- An event that is honest about the operands on the stack. -/
def Honest (machine : Machine) : Event → Prop
  | .newInput ty address => FitsAt address ty.size
  | .load _ _ ty value | .deref _ _ ty value => SizeFits ty value
  | .store _ address | .write _ address =>
    machine.OnTop fun operand ↦ FitsAt address operand.bytes
  | .unary _ op ty value =>
    ty ≠ .struct ∧ machine.OnTop fun operand ↦ operand.ty ≠ .struct ∧
      (operand.isSymbolic = true → value = op.apply ty operand.bits operand.value)
  | .binary _ op ty value =>
    ty ≠ .struct ∧ ty ≠ .bool ∧ machine.OnTopTwo fun lhs rhs ↦
      lhs.ty ≠ .struct ∧ rhs.ty ≠ .struct ∧
        (lhs.isSymbolic = true ∨ rhs.isSymbolic = true →
          value = op.apply ty lhs.value rhs.value)
  | .compare _ op ty value =>
    ty ≠ .struct ∧ machine.OnTopTwo fun lhs rhs ↦
      lhs.ty ≠ .struct ∧ rhs.ty ≠ .struct ∧
        (lhs.isSymbolic = true ∨ rhs.isSymbolic = true →
          value = flag (op.apply (max lhs.bits rhs.bits) lhs.value rhs.value)) ∧
        (lhs.isSymbolic ≠ rhs.isSymbolic → lhs.ty = rhs.ty)
  | .pointer _ op size value =>
    machine.OnTopTwo fun lhs rhs ↦ lhs.ty ≠ .struct ∧ rhs.ty ≠ .struct ∧
      (lhs.isSymbolic = true ∨ rhs.isSymbolic = true →
        value = op.apply size lhs.value rhs.value)
  | .branch _ _ taken =>
    machine.OnTop fun operand ↦ operand.ty ≠ .struct ∧ taken = (operand.value != 0)
  | _ => True

/-- Every event of a run is honest when it comes. -/
def HonestRun (machine : Machine) (events : List Event) : Prop :=
  machine.Along Honest events

instance (machine : Machine) : (event : Event) → Decidable (machine.Honest event)
  | .newInput _ _ => inferInstanceAs (Decidable (FitsAt _ _))
  | .unary _ _ _ _ | .binary _ _ _ _ | .compare _ _ _ _ => inferInstanceAs (Decidable (_ ∧ _))
  | .load _ _ _ _ | .deref _ _ _ _ => inferInstanceAs (Decidable (SizeFits _ _))
  | .store _ _ | .write _ _ | .branch _ _ _ => inferInstanceAs (Decidable (machine.OnTop _))
  | .pointer _ _ _ _ => inferInstanceAs (Decidable (machine.OnTopTwo _))
  | .alloc _ _ _ | .dropOperands _ | .untracked _ _ _ | .call _ _ | .ret _ | .takeResult _ _ _ =>
    .isTrue trivial

instance (machine : Machine) (events : List Event) : Decidable (machine.HonestRun events) :=
  inferInstanceAs (Decidable (machine.Along Honest events))

/-- Asking for inputs at one address is honest. -/
theorem honestRun_replicate {machine : Machine} {ty : CType} {address : Address}
    (fits : FitsAt address ty.size) (count : Nat) :
    machine.HonestRun (.replicate count (.newInput ty address)) :=
  along_replicate (fun _ ↦ fits) count

/-- Two overlapping inputs, a load that finds one byte changed, a call, and a branch on the
product of what was loaded and what was returned. -/
def overlapEvents : List Event :=
  [.newInput .int 16, .newInput .short 18, .load 1 16 .int 0x00ff012c, .call 2 7,
    .load 3 18 .short 7, .ret 3, .takeResult 4 .short 0, .load 5 16 .int 0x00ff012c,
    .binary 6 .mul .int 0x6f90834, .load 7 16 .int 44, .compare 8 .ugt .int 1, .branch 9 4 true]

/-- Everything symbolic about a machine is tracked. -/
structure Tracks (admissible : CType → Prop) (machine : Machine) : Prop where
  layout : Layout machine.record.memory.cells
  cells : AllCells (Tracked admissible machine.record.inputs machine.record.vars)
    machine.record.memory.cells
  stack : ∀ operand ∈ machine.stack,
    operand.Formed (Tracked admissible machine.record.inputs machine.record.vars)
  constraints : ∀ constraint ∈ machine.record.path.constraints,
    Tracked admissible machine.record.inputs machine.record.vars constraint.condition ∧
      constraint.condition.isComparison = true ∧ constraint.holds = true
  asked : ∀ id ty, machine.record.vars.get? id = some ty → id.toNat < machine.inputCount
  counted : machine.inputCount ≤ machine.record.inputs.length
  idle : machine.awaitingInput = true → machine.stack = []

/-- What `Tracks` says, as an invariant. -/
def tracking (admissible : CType → Prop) : Invariant where
  asked asked := asked.Numbered ∧ asked.count ≤ asked.inputs.length
  cell asked := Tracked admissible asked.inputs asked.vars
  operand asked := Operand.Formed (Tracked admissible asked.inputs asked.vars)
  constraint asked constraint := Tracked admissible asked.inputs asked.vars constraint.condition ∧
    constraint.condition.isComparison = true ∧ constraint.holds = true

section

variable {admissible : CType → Prop} {machine after : Machine}

theorem tracks_iff : Tracks admissible machine ↔ machine.Upholds (tracking admissible) :=
  ⟨fun tracks ↦ ⟨tracks.layout, ⟨tracks.asked, tracks.counted⟩, tracks.cells, tracks.stack,
    tracks.constraints, tracks.idle⟩,
  fun upholds ↦ ⟨upholds.layout, upholds.cells, upholds.stack, upholds.constraints,
    upholds.asked.1, upholds.asked.2, upholds.idle⟩⟩

theorem tracks_start (admissible : CType → Prop) (policy : PointerPolicy) (inputs : List Value) :
    Tracks admissible (start policy inputs) :=
  tracks_iff.mpr (upholds_start policy inputs ⟨(fun _ _ found ↦ by cases found), Nat.zero_le _⟩)

namespace Tracks

theorem lawful (usual : ∀ ty, ty ≠ .bool → admissible ty) :
    (tracking admissible).Lawful admissible where
  read _ := Tracked.readClosed usual
  formed _ _ formed := formed

/-- The declarations only grow, as no number is given twice. -/
theorem grows {asked : Asked} {ty : CType} (numbered : asked.Numbered)
    (narrow : asked.count < 2 ^ 32) :
    (tracking admissible).Grows asked (asked.next ty) := by
  have weaken (e : Expr) (tracked : Tracked admissible asked.inputs asked.vars e) :
      Tracked admissible asked.inputs (asked.next ty).vars e :=
    tracked.weaken fun _ _ found ↦ numbered.get?_next_of_get? narrow found
  exact ⟨weaken, fun _ formed ↦ formed.mono weaken, fun _ holds ↦ holds.imp_left (weaken _)⟩

/-- A new input is declared under the next number. -/
theorem sustains_newInput (tracks : Tracks admissible machine) {ty : CType} {address : Address}
    (admitted : admissible ty) (narrow : machine.inputCount < 2 ^ 32)
    (fits : FitsAt address ty.size) :
    machine.Sustains admissible (tracking admissible) (.newInput ty address) := by
  have numbered : machine.asked.Numbered := tracks.asked
  have number : (BitVec.ofNat 32 machine.inputCount).toNat = machine.inputCount :=
    Nat.mod_eq_of_lt narrow
  refine ⟨fits, fun entry scalar given ↦
    ⟨⟨numbered.next narrow, ?_⟩, grows numbered narrow, ?_⟩⟩
  · exact (List.getElem?_eq_some_iff.mp given).1
  · exact Tracked.tracked_input scalar admitted (machine.asked.get?_next ty) (by rwa [number])

/-- What an honest event adds is tracked. -/
theorem sustains (usual : ∀ ty, ty ≠ .bool → admissible ty) (tracks : Tracks admissible machine)
    {event : Event} (unwrapped : machine.Unwrapped event) (honest : machine.Honest event)
    (admitted : ∀ ty, event.type? = some ty → admissible ty) :
    machine.Sustains admissible (tracking admissible) event := by
  have formed {operand : Operand} (member : operand ∈ machine.stack) :=
    tracks.stack operand member
  cases event with
  | newInput ty address =>
    exact tracks.sustains_newInput (admitted ty rfl) (unwrapped ty rfl) honest
  | load id address ty value | deref id address ty value => exact ⟨admitted ty rfl, honest⟩
  | store id address | write id address =>
    intro operand rest stack
    exact (tracks_iff.mp tracks).accepts (lawful usual) (formed (by simp [stack]))
      (honest operand rest stack)
  | unary id op ty value =>
    intro operand rest stack
    obtain ⟨scalarOperand, applied⟩ := honest.2 operand rest stack
    exact formed_applyUnary op (formed (by simp [stack])) scalarOperand honest.1 (admitted ty rfl)
      applied
  | binary id op ty value =>
    intro rhs lhs rest stack
    obtain ⟨scalar, notBool, onStack⟩ := honest
    obtain ⟨scalarLeft, scalarRight, applied⟩ := onStack rhs lhs rest stack
    exact formed_applyBinary op (formed (by simp [stack])) (formed (by simp [stack])) scalarLeft
      scalarRight scalar notBool (admitted ty rfl) applied
  | compare id op ty value =>
    intro rhs lhs rest stack
    obtain ⟨scalarLeft, scalarRight, applied, mixed⟩ := honest.2 rhs lhs rest stack
    exact formed_applyCompare op (formed (by simp [stack])) (formed (by simp [stack])) scalarLeft
      scalarRight honest.1 (admitted ty rfl) applied mixed
  | pointer id op size value =>
    intro rhs lhs rest stack
    obtain ⟨scalarLeft, scalarRight, applied⟩ := honest rhs lhs rest stack
    exact formed_applyPointer op usual (formed (by simp [stack])) (formed (by simp [stack]))
      scalarLeft scalarRight applied
  | branch id branch taken =>
    intro e index stack
    obtain ⟨scalar, direction⟩ := honest (.symbolic e) [] stack
    obtain ⟨tracked, isScalar⟩ := Operand.holds_of_symbolic (formed (by simp [stack])) scalar
    obtain ⟨trackedCondition, nonzero⟩ := Tracked.tracked_condition usual isScalar tracked
    refine ⟨trackedCondition, e.condition_isComparison, ?_⟩
    rw [Constraint.holds, nonzero, direction]
    exact beq_self_eq_true _
  | alloc | dropOperands | untracked | call | ret | takeResult => trivial

/-- One honest event keeps everything tracked. -/
theorem step (usual : ∀ ty, ty ≠ .bool → admissible ty) (tracks : Tracks admissible machine)
    {event : Event} {next : Step} (unwrapped : machine.Unwrapped event)
    (honest : machine.Honest event) (admitted : ∀ ty, event.type? = some ty → admissible ty)
    (ran : machine.step event = .ok next) : Tracks admissible next.machine :=
  tracks_iff.mpr <| (tracks_iff.mp tracks).step (lawful usual)
    (tracks.sustains usual unwrapped honest admitted) ran

/-- An honest run keeps everything tracked, as long as the numbers of inputs do not wrap. -/
theorem run (usual : ∀ ty, ty ≠ .bool → admissible ty) (tracks : Tracks admissible machine)
    {events : List Event} (narrow : machine.inputCount + (askedTypes events).length ≤ 2 ^ 32)
    (honest : machine.HonestRun events)
    (admitted : ∀ event ∈ events, ∀ ty, event.type? = some ty → admissible ty)
    (ran : machine.run events = .ok after) : Tracks admissible after := by
  have allowed := Along.and (along_unwrapped narrow) <| honest.and <|
    along_of_forall fun event member _ ↦ admitted event member
  exact tracks_iff.mpr <| (tracks_iff.mp tracks).run (lawful usual)
    (fun _ _ upholds allowed ↦
      (tracks_iff.mpr upholds).sustains usual allowed.1 allowed.2.1 allowed.2.2) allowed ran

end Tracks

/-- What an honest run ends in is tracked, as long as the run asks for no more inputs than there
are numbers. -/
theorem tracks_run {policy : PointerPolicy} {inputs : List Value}
    (usual : ∀ ty, ty ≠ .bool → admissible ty) {events : List Event}
    (narrow : (askedTypes events).length ≤ 2 ^ 32)
    (honest : (start policy inputs).HonestRun events)
    (admitted : ∀ event ∈ events, ∀ ty, event.type? = some ty → admissible ty)
    (ran : (start policy inputs).run events = .ok after) : Tracks admissible after :=
  (tracks_start admissible policy inputs).run usual (Nat.le_trans (Nat.le_of_eq (Nat.zero_add _))
    narrow) honest admitted ran

end

end Machine

end Concolic
