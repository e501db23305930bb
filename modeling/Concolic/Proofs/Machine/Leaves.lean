import Concolic.Proofs.Expr.WellFormed
import Concolic.Proofs.Machine.Closure
import Concolic.Proofs.Machine.History
import Concolic.Proofs.Memory.Leaves

/-!
# Leaves on a machine

A step makes up two kinds of leaves: the next input, and constants with converted values for plain
operands beside symbolic ones.  All other leaves on the stack, in memory and in the constraints
have been there before.
-/

namespace Concolic

/-- The recorded value is converted to the type of the leaf. -/
def Leaf.IsConverted : Leaf → Prop
  | .input _ ty value | .const ty value => ty.normalize value = value

/-- A leaf with a converted value is a converted node. -/
theorem Expr.isConverted_of_leavesIn {e : Expr} (all : e.LeavesIn Leaf.IsConverted)
    (leaf : e.ownLeaf ≠ none) : e.IsConverted := by
  cases e with
  | input id ty value => exact all (.input id ty value) List.mem_cons_self
  | const ty value => exact all (.const ty value) List.mem_cons_self
  | _ => exact absurd rfl leaf

/-- The condition holds of all leaves on the stack, in memory and in the constraints. -/
structure Machine.LeavesIn (condition : Leaf → Prop) (machine : Machine) : Prop where
  stack : ∀ operand ∈ machine.stack, operand.LeavesIn condition
  memory : AllCells (Expr.LeavesIn condition) machine.memory.cells
  constraints : ∀ constraint ∈ machine.record.path.constraints,
    constraint.condition.LeavesIn condition

namespace Machine

variable {condition other : Leaf → Prop} {machine : Machine} {step : Step}

theorem LeavesIn.mono (all : machine.LeavesIn condition)
    (weaker : ∀ leaf, condition leaf → other leaf) : machine.LeavesIn other where
  stack operand member leaf inner := weaker leaf (all.stack operand member leaf inner)
  memory start e found := (all.memory start e found).mono weaker
  constraints constraint member := (all.constraints constraint member).mono weaker

theorem leavesIn_iff_holds (condition : Leaf → Prop) (machine : Machine) :
    machine.LeavesIn condition ↔
      machine.Holds (fun _ ↦ True) (Expr.LeavesIn condition) := by
  constructor
  · rintro ⟨stack, memory, constraints⟩
    exact ⟨fun operand member ↦ (operand.leavesIn_iff condition).mp (stack operand member), memory,
      constraints⟩
  · rintro ⟨stack, memory, constraints⟩
    exact ⟨fun operand member ↦ (operand.leavesIn_iff condition).mpr (stack operand member),
      memory, constraints⟩

theorem leavesIn_start (condition : Leaf → Prop) (policy : PointerPolicy) (inputs : List Value) :
    (start policy inputs).LeavesIn condition :=
  (leavesIn_iff_holds ..).mpr (holds_start _ _ policy inputs)

theorem leavesIn_beside (constants : ∀ ty value, condition (.const ty (ty.normalize value)))
    {l r : Expr} (beside : Beside (Expr.LeavesIn condition) l r) :
    ∀ leaf ∈ l.leaves ++ r.leaves, condition leaf := by
  obtain ⟨left, right⟩ := beside.both fun ty value leaf member ↦ by
    obtain rfl := List.mem_singleton.mp member
    exact constants ty value
  exact Expr.leavesIn_two left right

/-- The leaves of a new node are those of its operands, and the constants put beside them. -/
theorem machineClosed_leavesIn
    (constants : ∀ ty value, condition (.const ty (ty.normalize value))) :
    Closed (fun _ ↦ True) (Expr.LeavesIn condition) where
  toClosed := closed_leavesIn condition
  observed _ _ := trivial
  unary _ _ _ _ all := all
  binary _ _ _ _ _ beside := leavesIn_beside constants beside
  compare _ _ _ _ _ beside := leavesIn_beside constants beside
  pointer _ _ _ _ _ beside := leavesIn_beside constants beside

theorem leavesIn_mkInput {id : InputId} {ty : CType} {value : Value}
    (here : condition (.input id ty (ty.normalize value))) :
    (Expr.mkInput id ty (ty.normalize value)).LeavesIn condition := by
  intro leaf member
  obtain rfl := List.mem_singleton.mp member
  rwa [CType.normalize_normalize]

theorem LeavesIn.newInput {address : Address} {ty : CType} (all : machine.LeavesIn condition)
    (inputs : ∀ entry, machine.record.inputs[machine.inputCount]? = some entry →
      condition (.input (.ofNat 32 machine.inputCount) ty (ty.normalize entry)))
    (ran : machine.newInput ty address = .ok step) : step.machine.LeavesIn condition :=
  (leavesIn_iff_holds ..).mpr <| ((leavesIn_iff_holds ..).mp all).newInput
    (closed_leavesIn condition) (fun entry given ↦ leavesIn_mkInput (inputs entry given)) ran

/-- One step keeps what holds of all leaves if it holds of those that the step can make up. -/
theorem leavesIn_step {event : Event} (all : machine.LeavesIn condition)
    (constants : ∀ ty value, condition (.const ty (ty.normalize value)))
    (inputs : ∀ ty address entry, event = .newInput ty address →
      machine.record.inputs[machine.inputCount]? = some entry →
      condition (.input (.ofNat 32 machine.inputCount) ty (ty.normalize entry)))
    (ran : machine.step event = .ok step) : step.machine.LeavesIn condition :=
  (leavesIn_iff_holds ..).mpr <| holds_step (machineClosed_leavesIn constants)
    ((leavesIn_iff_holds ..).mp all)
    (fun ty address entry new given ↦ leavesIn_mkInput (inputs ty address entry new given)) ran

/-- Whatever is reported to a run, its leaves have converted values. -/
theorem convertedLeaves_run {policy : PointerPolicy} {inputs : List Value} {events : List Event}
    {final : Machine} (ran : (start policy inputs).run events = .ok final) :
    final.LeavesIn Leaf.IsConverted := by
  refine run_induction ran (leavesIn_start _ policy inputs) fun _ _ _ _ _ ih stepped ↦ ?_
  exact leavesIn_step ih (fun ty value ↦ ty.normalize_normalize value)
    (fun ty _ entry _ _ ↦ ty.normalize_normalize entry) stepped

end Machine

end Concolic
