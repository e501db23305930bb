import Concolic.Machine.Step
import Concolic.Proofs.Machine.Inversion
import Concolic.Proofs.Memory.Closure

/-!
# Conditions that steps keep

A condition on expressions that memory and the operators keep holds, at every point of a run, on
the stack, in memory and in the constraints, as long as it holds of the inputs asked for.  Values
that are reported play no part in it, and neither does the layout of memory.
-/

namespace Concolic.Machine

/-- The operands of a new node: both meet the condition, or one does and the other is a constant. -/
inductive Beside (node : Expr → Prop) : Expr → Expr → Prop where
  | two {l r : Expr} (left : node l) (right : node r) : Beside node l r
  | left {l : Expr} (here : node l) (ty : CType) (value : Value) : Beside node l (.mkConst ty value)
  | right {r : Expr} (ty : CType) (value : Value) (here : node r) : Beside node (.mkConst ty value) r

theorem Beside.both {node : Expr → Prop} {l r : Expr} (beside : Beside node l r)
    (constant : ∀ ty value, node (.mkConst ty value)) : node l ∧ node r := by
  cases beside with
  | two left right => exact ⟨left, right⟩
  | left here ty value => exact ⟨here, constant ty value⟩
  | right ty value here => exact ⟨constant ty value, here⟩

/-- What a step makes of operands that meet the conditions gives such operands. -/
structure Closed (plain : TypedValue → Prop) (node : Expr → Prop) : Prop
    extends Memory.Closed node where
  observed : ∀ ty value, plain (.of ty value)
  unary : ∀ op {e} ty value, node e → node (.mkUnary op e ty value)
  binary : ∀ op {l r} ty value, Beside node l r → node (.mkBinary op l r ty value)
  compare : ∀ op {l r} ty value, Beside node l r → node (.mkCompare op l r ty value)
  pointer : ∀ op {l r} size value, Beside node l r → node (.mkPointer op l r size value)

/-- The conditions hold on the stack, in memory and in the constraints. -/
structure Holds (plain : TypedValue → Prop) (node : Expr → Prop) (machine : Machine) : Prop where
  stack : ∀ operand ∈ machine.stack, operand.Satisfies plain node
  memory : AllCells node machine.memory.cells
  constraints : ∀ constraint ∈ machine.record.path.constraints, node constraint.condition

variable {plain : TypedValue → Prop} {node : Expr → Prop} {machine : Machine} {step : Step}
  {id : InstructionId} {address : Address} {ty : CType} {value : Value}

theorem holds_start (plain : TypedValue → Prop) (node : Expr → Prop) (policy : PointerPolicy)
    (inputs : List Value) : (start policy inputs).Holds plain node where
  stack _ member := by cases member
  memory _ _ found := by cases found
  constraints _ member := by cases member

/-! ## New operands -/

/-- Of two operands that are not both plain, a plain one becomes a constant. -/
theorem beside_lift {lhs rhs : Operand} (left : lhs.Satisfies plain node)
    (right : rhs.Satisfies plain node) (symbolic : (lhs.isSymbolic || rhs.isSymbolic) = true)
    (leftType rightType : CType) : Beside node (lhs.lift leftType) (rhs.lift rightType) := by
  cases lhs with
  | symbolic l =>
    cases rhs with
    | symbolic r => exact .two left right
    | concrete typed => exact .left left _ _
  | concrete typed =>
    cases rhs with
    | symbolic r => exact .right _ _ right
    | concrete other => contradiction

namespace Closed

variable {operand lhs rhs : Operand} (closed : Closed plain node)

include closed

theorem applyUnary (op : UnaryOp) (here : operand.Satisfies plain node) (ty : CType)
    (value : Value) : (applyUnary op operand ty value).Satisfies plain node := by
  cases operand with
  | concrete typed => exact closed.observed ty value
  | symbolic e => exact closed.unary op ty value here

theorem condition {e : Expr} (here : node e) : node e.condition := by
  unfold Expr.condition
  split
  · exact here
  · exact closed.compare _ _ _ (.left here _ _)

variable (left : lhs.Satisfies plain node) (right : rhs.Satisfies plain node)

include left right

theorem applyBinary (op : BinaryOp) (ty : CType) (value : Value) :
    (applyBinary op lhs rhs ty value).Satisfies plain node := by
  unfold Machine.applyBinary
  split
  · next symbolic => exact closed.binary op ty value (beside_lift left right symbolic _ _)
  · exact closed.observed ty value

theorem applyCompare (op : CompareOp) (ty : CType) (value : Value) :
    (applyCompare op lhs rhs ty value).Satisfies plain node := by
  unfold Machine.applyCompare
  split
  · next symbolic => exact closed.compare op ty value (beside_lift left right symbolic _ _)
  · exact closed.observed ty value

theorem applyPointer (op : PointerOp) (size : BitVec 64) (value : Value) :
    (applyPointer op lhs rhs size value).Satisfies plain node := by
  unfold Machine.applyPointer
  split
  · next symbolic => exact closed.pointer op size value (beside_lift left right symbolic _ _)
  · exact closed.observed op.resultType value

end Closed

/-! ## Steps -/

namespace Holds

/-- A new top above operands that have been there before. -/
theorem replaceTop (all : machine.Holds plain node) (popped : List Operand) {operand : Operand}
    {rest : List Operand} (stack : machine.stack = popped ++ rest)
    (new : operand.Satisfies plain node) :
    ∀ other ∈ operand :: rest, other.Satisfies plain node := by
  rw [List.forall_mem_cons]
  refine ⟨new, fun other below ↦ all.stack other ?_⟩
  rw [stack]
  exact List.mem_append_right _ below

theorem newInput (all : machine.Holds plain node) (closed : Memory.Closed node)
    (inputs : ∀ entry, machine.record.inputs[machine.inputCount]? = some entry →
      node (.mkInput (.ofNat 32 machine.inputCount) ty (ty.normalize entry)))
    (ran : machine.newInput ty address = .ok step) : step.machine.Holds plain node := by
  obtain ⟨-, entry, memory, given, wrote, result⟩ := newInput_inv ran
  rw [result]
  exact ⟨all.stack, closed.write all.memory (inputs entry given) wrote, all.constraints⟩

theorem load (all : machine.Holds plain node) (closed : Closed plain node)
    (ran : machine.load id address ty value = .ok step) : step.machine.Holds plain node := by
  rcases load_inv ran with ⟨-, same⟩ | ⟨-, reading, read, result⟩
  · rwa [same]
  · have new := closed.readReporting closed.observed all.memory read
    rw [result]
    split
    · exact ⟨List.forall_mem_cons.mpr ⟨new, fun _ member ↦ by cases member⟩, all.memory,
        all.constraints⟩
    · exact ⟨all.replaceTop [] rfl new, all.memory, all.constraints⟩

theorem deref (all : machine.Holds plain node) (closed : Closed plain node)
    (ran : machine.deref id address ty value = .ok step) : step.machine.Holds plain node := by
  rcases deref_inv ran with ⟨-, same⟩ | ⟨-, pointer, rest, reading, stack, read, result⟩
  · rwa [same]
  · have new : reading.operand.Satisfies plain node := by
      split at read
      · cases policy : machine.policy with
        | forget =>
          rw [policy] at read
          cases read
          exact closed.observed ty value
        | follow =>
          rw [policy] at read
          exact closed.readReporting closed.observed all.memory read
      · exact closed.readReporting closed.observed all.memory read
    rw [result]
    exact ⟨all.replaceTop [pointer] stack new, all.memory, all.constraints⟩

theorem store (all : machine.Holds plain node) (closed : Memory.Closed node)
    (ran : machine.store id address = .ok step) : step.machine.Holds plain node := by
  rcases store_inv ran with ⟨-, same⟩ | ⟨-, operand, rest, memory, stack, stored, result⟩
  · rwa [same]
  · have here := all.stack operand (by simp [stack])
    rw [result]
    exact ⟨fun other member ↦ all.stack other (by rw [stack]; exact .tail _ member),
      closed.store all.memory here stored, all.constraints⟩

theorem write (all : machine.Holds plain node) (closed : Memory.Closed node)
    (ran : machine.write id address = .ok step) : step.machine.Holds plain node := by
  rcases write_inv ran with
    ⟨-, same⟩ | ⟨-, operand, pointer, rest, memory, stack, stored, result⟩
  · rwa [same]
  · have here := all.stack operand (by simp [stack])
    rw [result]
    exact ⟨fun other member ↦ all.stack other (by rw [stack]; exact .tail _ (.tail _ member)),
      closed.store all.memory here stored, all.constraints⟩

theorem onTwo {combine : Operand → Operand → Operand} (all : machine.Holds plain node)
    (new : ∀ lhs rhs, lhs.Satisfies plain node → rhs.Satisfies plain node →
      (combine lhs rhs).Satisfies plain node)
    (ran : machine.onTwo id combine = .ok step) : step.machine.Holds plain node := by
  rcases onTwo_inv ran with ⟨-, same⟩ | ⟨-, rhs, lhs, rest, stack, result⟩
  · rwa [same]
  · have right := all.stack rhs (by simp [stack])
    have left := all.stack lhs (by simp [stack])
    rw [result]
    exact ⟨all.replaceTop [rhs, lhs] stack (new lhs rhs left right), all.memory, all.constraints⟩

theorem branch {branch : BranchId} {taken : Bool} (all : machine.Holds plain node)
    (closed : Closed plain node) (ran : machine.branch id branch taken = .ok step) :
    step.machine.Holds plain node := by
  rcases branch_inv ran with ⟨-, result⟩ | ⟨-, ⟨typed, stack, result⟩ | ⟨e, stack, result⟩⟩
  · rw [result]
    exact ⟨all.stack, all.memory, all.constraints⟩
  · rw [result]
    exact ⟨fun _ member ↦ (by cases member), all.memory, all.constraints⟩
  · have here : node e := all.stack (.symbolic e) (by simp [stack])
    rw [result]
    refine ⟨fun _ member ↦ (by cases member), all.memory, fun constraint member ↦ ?_⟩
    rcases List.mem_append.mp member with old | new
    · exact all.constraints constraint old
    · obtain rfl := List.mem_singleton.mp new
      exact closed.condition here

end Holds

/-- One step keeps closed conditions, if they hold of the input that it asks for. -/
theorem holds_step {event : Event} (closed : Closed plain node) (all : machine.Holds plain node)
    (inputs : ∀ ty address entry, event = .newInput ty address →
      machine.record.inputs[machine.inputCount]? = some entry →
      node (.mkInput (.ofNat 32 machine.inputCount) ty (ty.normalize entry)))
    (ran : machine.step event = .ok step) : step.machine.Holds plain node := by
  cases event with
  | newInput ty address =>
    exact all.newInput closed.toClosed (fun entry given ↦ inputs ty address entry rfl given) ran
  | alloc id address size =>
    obtain ⟨memory, cleared, result⟩ := alloc_inv ran
    rw [result]
    exact ⟨all.stack, closed.concretize all.memory cleared, all.constraints⟩
  | load id address ty value => exact all.load closed ran
  | deref id address ty value => exact all.deref closed ran
  | store id address => exact all.store closed.toClosed ran
  | write id address => exact all.write closed.toClosed ran
  | dropOperands id =>
    rcases dropOperands_inv ran with ⟨-, same⟩ | ⟨-, result⟩
    · rwa [same]
    · rw [result]
      exact ⟨fun _ member ↦ (by cases member), all.memory, all.constraints⟩
  | unary id op ty value =>
    rcases unary_inv ran with ⟨-, same⟩ | ⟨-, operand, rest, stack, result⟩
    · rwa [same]
    · have here := all.stack operand (by simp [stack])
      rw [result]
      exact ⟨all.replaceTop [operand] stack (closed.applyUnary op here ty value), all.memory,
        all.constraints⟩
  | binary id op ty value =>
    exact all.onTwo (fun _ _ left right ↦ closed.applyBinary left right op ty value) ran
  | compare id op ty value =>
    exact all.onTwo (fun _ _ left right ↦ closed.applyCompare left right op ty value) ran
  | pointer id op size value =>
    exact all.onTwo (fun _ _ left right ↦ closed.applyPointer left right op size value) ran
  | untracked id ty value =>
    rcases untracked_inv ran with ⟨-, same⟩ | ⟨-, rhs, lhs, rest, stack, result⟩
    · rwa [same]
    · rw [result]
      exact ⟨all.replaceTop [rhs, lhs] stack (closed.observed ty value), all.memory,
        all.constraints⟩
  | branch id branch taken => exact all.branch closed ran
  | call id function =>
    rw [call_inv ran]
    exact ⟨fun _ member ↦ (by cases member), all.memory, all.constraints⟩
  | ret id =>
    obtain ⟨scope, scopes, pending, -, -, result⟩ := ret_inv ran
    rw [result]
    exact ⟨all.stack, all.memory, all.constraints⟩
  | takeResult id ty value =>
    rcases takeResult_inv ran with ⟨-, same⟩ | ⟨-, ⟨-, -, result⟩ | ⟨-, result⟩⟩
    · rwa [same]
    · rw [result]
      exact ⟨all.stack, all.memory, all.constraints⟩
    · rw [result]
      exact ⟨List.forall_mem_cons.mpr ⟨closed.observed ty value, fun _ member ↦ by
        cases member⟩, all.memory, all.constraints⟩

end Concolic.Machine
