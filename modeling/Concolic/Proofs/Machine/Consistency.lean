import Concolic.Proofs.Machine.Honest

/-!
# Symbolic and concrete execution agree

On an honest run every expression on the stack, in memory and in the path condition records values
that follow from each other, and evaluates on the inputs of the run to the value that it records.
-/

namespace Concolic

/-- The recorded values follow from each other and are those on the inputs. -/
structure Expr.Faithful (inputs : List Value) (e : Expr) : Prop where
  consistent : e.isConsistent = true
  evaluated : e.evaluate inputs = e.value

variable {admissible : CType → Prop} {inputs : List Value} {vars : WordMap 32 CType} {e : Expr}

theorem Tracked.faithful (tracked : Tracked admissible inputs vars e) : e.Faithful inputs where
  consistent := tracked.isConsistent
  evaluated := tracked.evaluate_eq_value

/-- The value of an aggregate is its size, which no inputs change. -/
theorem Operand.Formed.faithful
    (formed : Operand.Formed (Tracked admissible inputs vars) (.symbolic e)) :
    e.Faithful inputs := by
  cases formed with
  | scalar flat scalar sized tracked => exact tracked.faithful
  | @region size parts value fit flat tracked =>
    constructor
    · have parts_consistent : Expr.arePartsConsistent parts = true := by
        rw [Expr.arePartsConsistent_eq_all, List.all_eq_true]
        exact fun part member ↦ (tracked part member).isConsistent
      rw [Expr.isConsistent, parts_consistent, Bool.and_true]
      exact beq_self_eq_true value
    · rfl

namespace Machine

/-- The two evaluations of a run agree on everything that the machine holds. -/
structure Agrees (inputs : List Value) (machine : Machine) : Prop where
  stack : ∀ e, .symbolic e ∈ machine.stack → e.Faithful inputs
  memory : ∀ start e, machine.memory.cells.get? start = some e → e.Faithful inputs
  conditions : ∀ constraint ∈ machine.record.path.constraints,
    constraint.condition.Faithful inputs
  directions : ∀ constraint ∈ machine.record.path.constraints, constraint.holds = true

theorem Tracks.agrees {machine : Machine} (tracks : Tracks admissible machine) :
    machine.Agrees machine.record.inputs where
  stack e member := (tracks.stack (.symbolic e) member).faithful
  memory start e found := (tracks.cells start e found).faithful
  conditions constraint member := (tracks.constraints constraint member).1.faithful
  directions constraint member := (tracks.constraints constraint member).2.2

/-- An honest run never lets the symbolic values drift from the concrete ones, whatever it reads
from memory and whatever is returned to it, as long as it asks for no more inputs than there are
numbers. -/
theorem run_agrees {policy : PointerPolicy} {events : List Event} {final : Machine}
    (narrow : (askedTypes events).length ≤ 2 ^ 32)
    (honest : (start policy inputs).HonestRun events)
    (ran : (start policy inputs).run events = .ok final) : final.Agrees inputs := by
  have tracks : Tracks (fun _ ↦ True) final :=
    tracks_run (fun _ _ ↦ trivial) narrow honest (fun _ _ _ _ ↦ trivial) ran
  have same : final.record.inputs = inputs := inputs_run ran
  exact same ▸ tracks.agrees

theorem run_agrees_overlap :
    ∃ final, (start .follow [300, 7]).run overlapEvents = .ok final ∧
      final.record.path.constraints.length = 1 ∧
      (askedTypes overlapEvents).length ≤ 2 ^ 32 ∧
      (start .follow [300, 7]).HonestRun overlapEvents ∧ final.Agrees [300, 7] := by
  have narrow : (askedTypes overlapEvents).length ≤ 2 ^ 32 := by decide
  have honest : (start .follow [300, 7]).HonestRun overlapEvents := by decide +kernel
  exact ⟨_, rfl, rfl, narrow, honest, run_agrees narrow honest rfl⟩

/-- The input after the last number is number zero again.  Its binding records the entry given for
it and evaluates to the one given for the first input. -/
theorem not_run_agrees_wrapped :
    ¬∀ (policy : PointerPolicy) (inputs : List Value) (events : List Event) (final : Machine),
      (start policy inputs).HonestRun events → (start policy inputs).run events = .ok final →
        final.Agrees inputs := by
  intro all
  obtain ⟨vars, ran⟩ := run_lastDiffers .forget (2 ^ 32)
  have agrees := all _ _ _ _ (honestRun_replicate fitsAt_int _) ran
  have same := (agrees.memory 16 _ (Memory.get?_only ..)).evaluated
  rw [Expr.evaluate_mkInput (getElem?_lastDiffers_of_lt (by decide))] at same
  exact absurd same (by decide)

end Machine

end Concolic
