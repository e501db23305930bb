import Concolic.Proofs.Machine.Inversion
import Mathlib.Data.List.Induction

/-!
# Runs and the events behind them

A run that succeeds has succeeded over every front part of its events, and what holds of a run is
shown from its first event to its last.  Events that ask for no input change nothing of the inputs
asked for; before the first one that does, the machine knows of nothing that depends on inputs.
-/

namespace Concolic

/-- The type of the input that an event asks for. -/
def Event.asked? : Event → Option CType
  | .newInput ty _ => some ty
  | _ => none

/-- The types of the inputs that events ask for, in order. -/
def askedTypes (events : List Event) : List CType :=
  events.filterMap Event.asked?

theorem askedTypes_concat (events : List Event) (event : Event) :
    askedTypes (events ++ [event]) = askedTypes events ++ event.asked?.toList := by
  rw [askedTypes, List.filterMap_append]
  cases asked : event.asked? <;> simp [askedTypes, asked]

theorem askedTypes_cons (event : Event) (events : List Event) :
    askedTypes (event :: events) = event.asked?.toList ++ askedTypes events := by
  rw [askedTypes, List.filterMap_cons]
  cases event.asked? <;> rfl

namespace Machine

variable {machine final : Machine} {next : Step} {events before after : List Event}
  {event : Event}

/-! ## Parts of a run -/

theorem run_append_eq_ok :
    machine.run (before ++ after) = .ok final ↔
      ∃ middle, machine.run before = .ok middle ∧ middle.run after = .ok final := by
  induction before generalizing machine with
  | nil => simp [run]
  | cons event rest ih =>
    simp only [List.cons_append, run, bind_eq_ok, ih]
    constructor
    · rintro ⟨step, stepped, middle, ran, later⟩
      exact ⟨middle, ⟨step, stepped, ran⟩, later⟩
    · rintro ⟨middle, ⟨step, stepped, ran⟩, later⟩
      exact ⟨step, stepped, middle, ran, later⟩

theorem run_cons_eq_ok :
    machine.run (event :: after) = .ok final ↔
      ∃ step, machine.step event = .ok step ∧ step.machine.run after = .ok final :=
  bind_eq_ok

theorem run_concat_eq_ok :
    machine.run (events ++ [event]) = .ok final ↔
      ∃ middle step, machine.run events = .ok middle ∧ middle.step event = .ok step ∧
        step.machine = final := by
  rw [run_append_eq_ok]
  constructor
  · rintro ⟨middle, ran, last⟩
    obtain ⟨step, stepped, rest⟩ := run_cons_eq_ok.mp last
    exact ⟨middle, step, ran, stepped, Except.ok.inj rest⟩
  · rintro ⟨middle, step, ran, stepped, rfl⟩
    exact ⟨middle, ran, run_cons_eq_ok.mpr ⟨step, stepped, rfl⟩⟩

/-- What holds of no events and the first machine, and is kept with every further event, holds of
the events of a run and the machine that it ends in. -/
@[elab_as_elim]
theorem run_induction {motive : List Event → Machine → Prop}
    (ran : machine.run events = .ok final) (first : motive [] machine)
    (further : ∀ seen middle event step, machine.run seen = .ok middle → motive seen middle →
      middle.step event = .ok step → motive (seen ++ [event]) step.machine) :
    motive events final := by
  induction events using List.reverseRecOn generalizing final with
  | nil =>
    cases ran
    exact first
  | append_singleton seen event ih =>
    obtain ⟨middle, step, ranSeen, stepped, rfl⟩ := run_concat_eq_ok.mp ran
    exact further seen middle event step ranSeen (ih ranSeen) stepped

/-! ## Inputs asked for -/

theorem asked_step (quiet : event.asked? = none) (ran : machine.step event = .ok next) :
    next.machine.record.vars = machine.record.vars ∧
      next.machine.inputCount = machine.inputCount ∧
      next.machine.awaitingInput = machine.awaitingInput := by
  cases event with
  | newInput => cases quiet
  | branch id branch taken =>
    rcases branch_inv ran with ⟨-, result⟩ | ⟨-, ⟨typed, -, result⟩ | ⟨e, -, result⟩⟩ <;>
      (rw [result]; exact ⟨rfl, rfl, rfl⟩)
  | call id function =>
    rw [call_inv ran]
    exact ⟨rfl, rfl, rfl⟩
  | ret id =>
    obtain ⟨scope, scopes, pending, -, -, result⟩ := ret_inv ran
    rw [result]
    exact ⟨rfl, rfl, rfl⟩
  | _ =>
    have same := ledger_step rfl ran
    exact ⟨congrArg Ledger.vars same, congrArg Ledger.inputCount same,
      congrArg Ledger.awaitingInput same⟩

theorem awaitingInput_step (ran : machine.step event = .ok next) :
    next.machine.awaitingInput = (machine.awaitingInput && event.asked?.isNone) := by
  cases asked : event.asked? with
  | none => rw [(asked_step asked ran).2.2, Option.isNone_none, Bool.and_true]
  | some ty =>
    cases event with
    | newInput type address =>
      obtain ⟨-, entry, memory, -, -, result⟩ := newInput_inv ran
      rw [result, Option.isNone_some, Bool.and_false]
    | _ => cases asked

theorem inputCount_step (ran : machine.step event = .ok next) :
    next.machine.inputCount = machine.inputCount + event.asked?.toList.length := by
  cases asked : event.asked? with
  | none => exact (asked_step asked ran).2.1
  | some ty =>
    cases event with
    | newInput type address =>
      obtain ⟨-, entry, memory, -, -, result⟩ := newInput_inv ran
      rw [result]
      rfl
    | _ => cases asked

/-- A run counts the inputs that it asks for. -/
theorem inputCount_run (ran : machine.run events = .ok final) :
    final.inputCount = machine.inputCount + (askedTypes events).length := by
  refine run_induction ran rfl fun seen middle event step _ ih stepped ↦ ?_
  rw [inputCount_step stepped, ih, askedTypes_concat, List.length_append, Nat.add_assoc]

/-- A run waits for inputs until it asks for one. -/
theorem awaitingInput_run (waiting : machine.awaitingInput = true)
    (ran : machine.run events = .ok final) :
    final.awaitingInput = (askedTypes events).isEmpty := by
  refine run_induction ran waiting fun seen middle event step _ ih stepped ↦ ?_
  rw [awaitingInput_step stepped, ih, askedTypes_concat]
  cases event.asked? <;> simp

/-! ## Before the first input -/

/-- The machine knows of nothing that depends on inputs. -/
structure Untouched (machine : Machine) : Prop where
  stack : machine.stack = []
  memory : machine.record.memory = .empty
  constraints : machine.record.path.constraints = []
  settled : machine.pendingReturn = false

theorem concretize_empty (address : Address) (length : Nat) :
    Memory.empty.concretize address length = .ok .empty := by
  unfold Memory.concretize
  split <;> rfl

theorem Untouched.step (untouched : machine.Untouched) (waiting : machine.awaitingInput = true)
    (quiet : event.asked? = none) (ran : machine.step event = .ok next) :
    next.machine.Untouched := by
  obtain ⟨stack, memory, constraints, settled⟩ := untouched
  cases event with
  | newInput => cases quiet
  | alloc id address size =>
    obtain ⟨cleared, concretized, result⟩ := alloc_inv ran
    rw [Machine.memory, memory, concretize_empty] at concretized
    rw [result]
    exact ⟨stack, (Except.ok.inj concretized).symm, constraints, settled⟩
  | branch id branch taken =>
    rcases branch_inv ran with ⟨-, result⟩ | ⟨active, -⟩
    · rw [result]
      exact ⟨stack, memory, constraints, settled⟩
    · rw [waiting] at active
      contradiction
  | call id function =>
    rw [call_inv ran]
    exact ⟨rfl, memory, constraints, rfl⟩
  | ret id =>
    obtain ⟨scope, scopes, pending, -, ⟨-, same⟩ | ⟨active, -⟩, result⟩ := ret_inv ran
    · rw [result, same]
      exact ⟨stack, memory, constraints, settled⟩
    · rw [waiting] at active
      contradiction
  | load | deref | store | write | dropOperands | unary | binary | compare | pointer | untracked
  | takeResult =>
    rcases idle_or_active ran with ⟨-, same⟩ | ⟨active, -⟩
    · rw [same]
      exact ⟨stack, memory, constraints, settled⟩
    · rw [waiting] at active
      contradiction

/-- A run that asks for no input leaves the machine as it was but for its ledger. -/
theorem Untouched.run (untouched : machine.Untouched) (waiting : machine.awaitingInput = true)
    (quiet : askedTypes events = []) (ran : machine.run events = .ok final) :
    final.Untouched := by
  revert quiet
  refine run_induction ran (fun _ ↦ untouched)
    fun seen middle event step ranSeen ih stepped quiet ↦ ?_
  rw [askedTypes_concat, List.append_eq_nil_iff, Option.toList_eq_nil_iff] at quiet
  have still : middle.awaitingInput = true := by
    rw [awaitingInput_run waiting ranSeen, quiet.1]
    rfl
  exact (ih quiet.1).step still quiet.2 stepped

theorem untouched_start (policy : PointerPolicy) (inputs : List Value) :
    (start policy inputs).Untouched :=
  ⟨rfl, rfl, rfl, rfl⟩

end Machine

end Concolic
