import Concolic.Machine.Step
import Concolic.Proofs.CType.Conversion

/-!
# What one step can do

One lemma for each kind of event: everything that a step which succeeds can have done to the
machine.  Invariants of runs are proved from these lemmas.
-/

namespace Concolic

theorem bind_eq_ok {ε α β : Type} {first : Except ε α} {next : α → Except ε β} {result : β} :
    (first >>= next) = .ok result ↔ ∃ middle, first = .ok middle ∧ next middle = .ok result := by
  cases first with
  | error fault => simp [bind, Except.bind]
  | ok value => simp [bind, Except.bind]

theorem ok_bind {ε α β : Type} (value : α) (next : α → Except ε β) :
    (Except.ok value >>= next) = next value :=
  rfl

theorem pure_eq_ok {ε α : Type} {value result : α} :
    (pure value : Except ε α) = .ok result ↔ value = result := by
  simp [pure, Except.pure]

/-- New inputs, branches, calls and returns are written down. -/
def Event.isWritten : Event → Bool
  | .newInput .. | .branch .. | .call .. | .ret .. => true
  | _ => false

namespace Machine

variable {machine : Machine} {step : Step} {id : InstructionId} {address : Address} {ty : CType}
  {value : Value}

theorem pop_eq_ok {top : Operand} {popped : Machine} :
    machine.pop id = .ok (top, popped) ↔
      ∃ rest, machine.stack = top :: rest ∧ popped = { machine with stack := rest } := by
  unfold pop
  cases machine.stack with
  | nil => simp
  | cons first rest =>
    simp only [Except.ok.injEq, Prod.mk.injEq, List.cons.injEq]
    constructor
    · rintro ⟨rfl, rfl⟩
      exact ⟨rest, ⟨rfl, rfl⟩, rfl⟩
    · rintro ⟨-, ⟨rfl, rfl⟩, rfl⟩
      exact ⟨rfl, rfl⟩

theorem pop_twice {top second : Operand} {below popped : Machine}
    (pops : machine.pop id = .ok (top, below)) (popsAgain : below.pop id = .ok (second, popped)) :
    ∃ rest, machine.stack = top :: second :: rest ∧ popped = { machine with stack := rest } := by
  obtain ⟨middle, stack, rfl⟩ := pop_eq_ok.mp pops
  obtain ⟨rest, stackBelow, rfl⟩ := pop_eq_ok.mp popsAgain
  have both : machine.stack = top :: second :: rest := stack.trans (by rw [← stackBelow])
  exact ⟨rest, both, rfl⟩

/-- Most steps do nothing before the first input. -/
theorem idle_or_active {active : Except Fault Step}
    (ran : (if machine.awaitingInput then .ok { machine } else active) = .ok step) :
    machine.awaitingInput = true ∧ step.machine = machine ∨
      machine.awaitingInput = false ∧ active = .ok step := by
  cases waiting : machine.awaitingInput with
  | true =>
    rw [waiting, if_pos rfl] at ran
    cases ran
    exact .inl ⟨rfl, rfl⟩
  | false =>
    rw [waiting, if_neg Bool.false_ne_true] at ran
    exact .inr ⟨rfl, ran⟩

theorem newInput_inv (ran : machine.newInput ty address = .ok step) :
    ty ≠ .struct ∧ ∃ entry memory, machine.record.inputs[machine.inputCount]? = some entry ∧
      machine.memory.write address ty
        (.mkInput (.ofNat 32 machine.inputCount) ty (ty.normalize entry)) = .ok memory ∧
      step.machine = { machine with
        record := { machine.record with
          vars := machine.record.vars.insert (.ofNat 32 machine.inputCount) ty, memory }
        inputCount := machine.inputCount + 1
        awaitingInput := false } := by
  unfold newInput at ran
  split at ran
  · contradiction
  · next scalar =>
    refine ⟨(CType.isStruct_eq_false_iff ty).mp (by simpa using scalar), ?_⟩
    simp only at ran
    split at ran
    · contradiction
    · next entry given =>
      obtain ⟨memory, wrote, rest⟩ := bind_eq_ok.mp ran
      rw [pure_eq_ok] at rest
      exact ⟨entry, memory, given, wrote, by rw [← rest]⟩

/-- A new input is answered with the next value given, converted to its type. -/
theorem newInput_result (ran : machine.newInput ty address = .ok step) :
    step.result =
      (machine.record.inputs[machine.inputCount]?).map ty.normalize := by
  unfold newInput at ran
  split at ran
  · contradiction
  · simp only at ran
    split at ran
    · contradiction
    · next entry given =>
      obtain ⟨memory, -, rest⟩ := bind_eq_ok.mp ran
      rw [pure_eq_ok] at rest
      rw [← rest, given]
      rfl

theorem alloc_inv {size : BitVec 64} (ran : machine.alloc id address size = .ok step) :
    ∃ memory, machine.memory.concretize address size.toNat = .ok memory ∧
      step.machine = { machine.withMemory memory with
        globals := machine.globals.insert address size } := by
  obtain ⟨memory, cleared, rest⟩ := bind_eq_ok.mp ran
  rw [pure_eq_ok] at rest
  exact ⟨memory, cleared, by rw [← rest]; rfl⟩

theorem load_inv (ran : machine.load id address ty value = .ok step) :
    machine.awaitingInput = true ∧ step.machine = machine ∨
      machine.awaitingInput = false ∧ ∃ reading,
        machine.memory.readReporting address ty value = .ok reading ∧
        step.machine =
          (if machine.pendingReturn then machine.clear else machine).push reading.operand := by
  unfold load at ran
  refine (idle_or_active ran).imp_right fun ⟨active, ran⟩ ↦ ⟨active, ?_⟩
  obtain ⟨reading, read, rest⟩ := bind_eq_ok.mp ran
  rw [pure_eq_ok] at rest
  exact ⟨reading, read, by rw [← rest]⟩

theorem loss_machine (machine : Machine) (id : InstructionId) (pointer : Operand)
    (address : Address) :
    (machine.loss id pointer address).machine =
      { machine with
        losses := if pointer.isSymbolic then machine.losses + 1 else machine.losses } := by
  cases pointer <;> rfl

theorem deref_inv (ran : machine.deref id address ty value = .ok step) :
    machine.awaitingInput = true ∧ step.machine = machine ∨
      machine.awaitingInput = false ∧ ∃ pointer rest reading,
        machine.stack = pointer :: rest ∧
        (if pointer.isSymbolic then machine.policy.read machine.memory address ty value
          else machine.memory.readReporting address ty value) = .ok reading ∧
        step.machine = { machine with
          stack := reading.operand :: rest
          losses := if pointer.isSymbolic then machine.losses + 1 else machine.losses } := by
  unfold deref at ran
  refine (idle_or_active ran).imp_right fun ⟨active, ran⟩ ↦ ⟨active, ?_⟩
  obtain ⟨⟨pointer, popped⟩, pops, ran⟩ := bind_eq_ok.mp ran
  obtain ⟨rest, stack, rfl⟩ := pop_eq_ok.mp pops
  have joined : ∃ reading,
      (if pointer.isSymbolic then machine.policy.read machine.memory address ty value
        else machine.memory.readReporting address ty value) = .ok reading ∧
      step.machine = (loss { machine with stack := rest } id pointer address).machine.push
        reading.operand := by
    simp only at ran
    split at ran
    · next followed =>
      obtain ⟨reading, read, ran⟩ := bind_eq_ok.mp ran
      rw [pure_eq_ok] at ran
      exact ⟨reading, by rw [if_pos followed, read], by rw [← ran]⟩
    · next plain =>
      obtain ⟨reading, read, ran⟩ := bind_eq_ok.mp ran
      rw [pure_eq_ok] at ran
      exact ⟨reading, by rw [if_neg plain, read], by rw [← ran]⟩
  obtain ⟨reading, read, result⟩ := joined
  refine ⟨pointer, rest, reading, stack, read, ?_⟩
  rw [result, loss_machine]
  rfl

theorem store_inv (ran : machine.store id address = .ok step) :
    machine.awaitingInput = true ∧ step.machine = machine ∨
      machine.awaitingInput = false ∧ ∃ operand rest memory,
        machine.stack = operand :: rest ∧ machine.memory.store address operand = .ok memory ∧
        step.machine = { machine with stack := rest }.withMemory memory := by
  unfold store at ran
  refine (idle_or_active ran).imp_right fun ⟨active, ran⟩ ↦ ⟨active, ?_⟩
  obtain ⟨⟨operand, popped⟩, pops, ran⟩ := bind_eq_ok.mp ran
  obtain ⟨rest, stack, rfl⟩ := pop_eq_ok.mp pops
  obtain ⟨memory, stored, ran⟩ := bind_eq_ok.mp ran
  rw [pure_eq_ok] at ran
  exact ⟨operand, rest, memory, stack, stored, by rw [← ran]⟩

theorem write_inv (ran : machine.write id address = .ok step) :
    machine.awaitingInput = true ∧ step.machine = machine ∨
      machine.awaitingInput = false ∧ ∃ operand pointer rest memory,
        machine.stack = operand :: pointer :: rest ∧
        machine.memory.store address operand = .ok memory ∧
        step.machine = { machine with
          stack := rest
          losses := if pointer.isSymbolic then machine.losses + 1
            else machine.losses }.withMemory memory := by
  unfold write at ran
  refine (idle_or_active ran).imp_right fun ⟨active, ran⟩ ↦ ⟨active, ?_⟩
  obtain ⟨⟨operand, below⟩, pops, ran⟩ := bind_eq_ok.mp ran
  obtain ⟨⟨pointer, popped⟩, popsAgain, ran⟩ := bind_eq_ok.mp ran
  obtain ⟨rest, stack, rfl⟩ := pop_twice pops popsAgain
  obtain ⟨memory, stored, ran⟩ := bind_eq_ok.mp ran
  rw [pure_eq_ok] at ran
  refine ⟨operand, pointer, rest, memory, stack, stored, ?_⟩
  rw [← ran, loss_machine]

theorem dropOperands_inv (ran : machine.dropOperands id = .ok step) :
    machine.awaitingInput = true ∧ step.machine = machine ∨
      machine.awaitingInput = false ∧ step.machine = machine.clear := by
  unfold dropOperands at ran
  refine (idle_or_active ran).imp_right fun ⟨active, ran⟩ ↦ ⟨active, ?_⟩
  cases ran
  rfl

theorem unary_inv {op : UnaryOp} (ran : machine.unary id op ty value = .ok step) :
    machine.awaitingInput = true ∧ step.machine = machine ∨
      machine.awaitingInput = false ∧ ∃ operand rest, machine.stack = operand :: rest ∧
        step.machine = { machine with stack := applyUnary op operand ty value :: rest } := by
  unfold unary at ran
  refine (idle_or_active ran).imp_right fun ⟨active, ran⟩ ↦ ⟨active, ?_⟩
  obtain ⟨⟨operand, popped⟩, pops, ran⟩ := bind_eq_ok.mp ran
  obtain ⟨rest, stack, rfl⟩ := pop_eq_ok.mp pops
  rw [pure_eq_ok] at ran
  exact ⟨operand, rest, stack, by rw [← ran]; rfl⟩

theorem onTwo_inv {combine : Operand → Operand → Operand}
    (ran : machine.onTwo id combine = .ok step) :
    machine.awaitingInput = true ∧ step.machine = machine ∨
      machine.awaitingInput = false ∧ ∃ rhs lhs rest, machine.stack = rhs :: lhs :: rest ∧
        step.machine = { machine with stack := combine lhs rhs :: rest } := by
  unfold onTwo at ran
  refine (idle_or_active ran).imp_right fun ⟨active, ran⟩ ↦ ⟨active, ?_⟩
  obtain ⟨⟨rhs, below⟩, pops, ran⟩ := bind_eq_ok.mp ran
  obtain ⟨⟨lhs, popped⟩, popsAgain, ran⟩ := bind_eq_ok.mp ran
  obtain ⟨rest, stack, rfl⟩ := pop_twice pops popsAgain
  rw [pure_eq_ok] at ran
  exact ⟨rhs, lhs, rest, stack, by rw [← ran]; rfl⟩

theorem untracked_inv (ran : machine.untracked id ty value = .ok step) :
    machine.awaitingInput = true ∧ step.machine = machine ∨
      machine.awaitingInput = false ∧ ∃ rhs lhs rest, machine.stack = rhs :: lhs :: rest ∧
        step.machine = { machine with stack := .concrete (.of ty value) :: rest } := by
  unfold untracked at ran
  refine (idle_or_active ran).imp_right fun ⟨active, ran⟩ ↦ ⟨active, ?_⟩
  obtain ⟨⟨rhs, below⟩, pops, ran⟩ := bind_eq_ok.mp ran
  obtain ⟨⟨lhs, popped⟩, popsAgain, ran⟩ := bind_eq_ok.mp ran
  obtain ⟨rest, stack, rfl⟩ := pop_twice pops popsAgain
  rw [pure_eq_ok] at ran
  exact ⟨rhs, lhs, rest, stack, by rw [← ran]; rfl⟩

theorem branch_inv {branch : BranchId} {taken : Bool}
    (ran : machine.branch id branch taken = .ok step) :
    machine.awaitingInput = true ∧
        step.machine = machine.withPath (machine.record.path.push branch) ∨
      machine.awaitingInput = false ∧
        ((∃ typed, machine.stack = [.concrete typed] ∧
          step.machine =
            { machine with stack := [] }.withPath (machine.record.path.push branch)) ∨
        ∃ e, machine.stack = [.symbolic e] ∧
          step.machine = { machine with stack := [] }.withPath
            (machine.record.path.pushConstraint branch e.condition taken)) := by
  unfold Machine.branch at ran
  split at ran
  · next idle =>
    cases ran
    exact .inl ⟨idle, rfl⟩
  · next active =>
    refine .inr ⟨by simpa using active, ?_⟩
    split at ran
    · next typed stack =>
      cases ran
      exact .inl ⟨typed, stack, rfl⟩
    · next e stack =>
      cases ran
      exact .inr ⟨e, stack, rfl⟩
    · contradiction

theorem call_inv {function : FunctionId} (ran : machine.call id function = .ok step) :
    step.machine = { machine.clear.withPath (machine.record.path.push callBranch) with
      scopes := ⟨function, id⟩ :: machine.scopes } := by
  cases ran
  rfl

theorem ret_inv (ran : machine.ret id = .ok step) :
    ∃ scope scopes pending, machine.scopes = scope :: scopes ∧
      (machine.awaitingInput = true ∧ pending = machine.pendingReturn ∨
        machine.awaitingInput = false ∧ machine.stack.length ≤ 1 ∧
          pending = decide (machine.stack.length = 1)) ∧
      step.machine = { machine.withPath (machine.record.path.push returnBranch) with
        scopes, pendingReturn := pending } := by
  unfold ret at ran
  split at ran
  · contradiction
  · next scope scopes entered =>
    simp only at ran
    split at ran
    · next idle =>
      cases ran
      exact ⟨scope, scopes, machine.pendingReturn, entered, .inl ⟨idle, rfl⟩, rfl⟩
    · next active =>
      split at ran
      · next short =>
        cases ran
        exact ⟨scope, scopes, _, entered, .inr ⟨by simpa using active, short, rfl⟩, rfl⟩
      · contradiction

theorem takeResult_inv (ran : machine.takeResult id ty value = .ok step) :
    machine.awaitingInput = true ∧ step.machine = machine ∨
      machine.awaitingInput = false ∧
        (machine.pendingReturn = true ∧ machine.stack.length = 1 ∧
          step.machine = { machine with pendingReturn := false } ∨
        machine.pendingReturn = false ∧
          step.machine = { machine with stack := [.concrete (.of ty value)] }) := by
  unfold takeResult at ran
  refine (idle_or_active ran).imp_right fun ⟨active, ran⟩ ↦ ⟨active, ?_⟩
  split at ran
  · next pending =>
    split at ran
    · next single =>
      cases ran
      exact .inl ⟨pending, single, rfl⟩
    · contradiction
  · next nothing =>
    cases ran
    exact .inr ⟨by simpa using nothing, rfl⟩

/-! ## The ledger -/

/-- What a machine writes down besides what it knows of values. -/
structure Ledger where
  inputs : List Value
  vars : WordMap 32 CType
  path : Path
  scopes : List Scope
  inputCount : Nat
  awaitingInput : Bool

def ledger (machine : Machine) : Ledger where
  inputs := machine.record.inputs
  vars := machine.record.vars
  path := machine.record.path
  scopes := machine.scopes
  inputCount := machine.inputCount
  awaitingInput := machine.awaitingInput

/-- Other events work on the stack and in memory alone. -/
theorem ledger_step {event : Event} (quiet : event.isWritten = false)
    (ran : machine.step event = .ok step) : step.machine.ledger = machine.ledger := by
  cases event with
  | newInput | branch | call | ret => cases quiet
  | alloc id address size =>
    obtain ⟨memory, -, result⟩ := alloc_inv ran
    rw [result]
    rfl
  | load id address ty value =>
    rcases load_inv ran with ⟨-, same⟩ | ⟨-, reading, -, result⟩
    · rw [same]
    · rw [result]
      split <;> rfl
  | deref id address ty value =>
    rcases deref_inv ran with ⟨-, same⟩ | ⟨-, pointer, rest, reading, -, -, result⟩
    · rw [same]
    · rw [result]
      rfl
  | store id address =>
    rcases store_inv ran with ⟨-, same⟩ | ⟨-, operand, rest, memory, -, -, result⟩
    · rw [same]
    · rw [result]
      rfl
  | write id address =>
    rcases write_inv ran with ⟨-, same⟩ | ⟨-, operand, pointer, rest, memory, -, -, result⟩
    · rw [same]
    · rw [result]
      rfl
  | dropOperands id =>
    rcases dropOperands_inv ran with ⟨-, same⟩ | ⟨-, result⟩
    · rw [same]
    · rw [result]
      rfl
  | unary id op ty value =>
    rcases unary_inv ran with ⟨-, same⟩ | ⟨-, operand, rest, -, result⟩
    · rw [same]
    · rw [result]
      rfl
  | binary | compare | pointer =>
    simp only [Machine.step, Machine.binary, Machine.compare, Machine.pointer] at ran
    rcases onTwo_inv ran with ⟨-, same⟩ | ⟨-, rhs, lhs, rest, -, result⟩
    · rw [same]
    · rw [result]
      rfl
  | untracked id ty value =>
    rcases untracked_inv ran with ⟨-, same⟩ | ⟨-, rhs, lhs, rest, -, result⟩
    · rw [same]
    · rw [result]
      rfl
  | takeResult id ty value =>
    rcases takeResult_inv ran with ⟨-, same⟩ | ⟨-, ⟨-, -, result⟩ | ⟨-, result⟩⟩
    · rw [same]
    · rw [result]
      rfl
    · rw [result]
      rfl

theorem inputs_step {event : Event} (ran : machine.step event = .ok step) :
    step.machine.record.inputs = machine.record.inputs := by
  cases event with
  | newInput ty address =>
    obtain ⟨-, entry, memory, -, -, result⟩ := newInput_inv ran
    rw [result]
  | branch id branch taken =>
    rcases branch_inv ran with ⟨-, result⟩ | ⟨-, ⟨typed, -, result⟩ | ⟨e, -, result⟩⟩ <;>
      (rw [result]; rfl)
  | call id function =>
    rw [call_inv ran]
    rfl
  | ret id =>
    obtain ⟨scope, scopes, pending, -, -, result⟩ := ret_inv ran
    rw [result]
    rfl
  | _ => exact congrArg Ledger.inputs (ledger_step rfl ran)

/-- A run reads its inputs and never changes them. -/
theorem inputs_run {events : List Event} {after : Machine}
    (ran : machine.run events = .ok after) : after.record.inputs = machine.record.inputs := by
  induction events generalizing machine with
  | nil =>
    cases ran
    rfl
  | cons event rest ih =>
    obtain ⟨first, stepped, ran⟩ := bind_eq_ok.mp ran
    rw [ih ran, inputs_step stepped]

end Machine

end Concolic
