import Concolic.Proofs.Straight.Foretold

/-!
# The machine beside two runs

The machine is driven by the run of a straight-line program on the inputs that it was given.  At
every step it mirrors the run on any other inputs of the same number: its stack and its bindings
have there the values of that run, memory that no binding covers is as on the driving run, and so
are the directions of branches without a constraint.
-/

namespace Concolic.Straight

open Machine

/-- The directions of all branches on the driving run and on other inputs: those of a branch with
a constraint are the one taken and the one of its condition. -/
inductive Branches (inputs : List Value) : List Constraint → List Bool → List Bool → Prop where
  | nil : Branches inputs [] [] []
  | plain {constraints : List Constraint} {seen others : List Bool} (direction : Bool)
      (before : Branches inputs constraints seen others) :
      Branches inputs constraints (seen ++ [direction]) (others ++ [direction])
  | constrained {constraints : List Constraint} {seen others : List Bool}
      (constraint : Constraint) (place : constraint.branch = .ofNat 64 seen.length)
      (before : Branches inputs constraints seen others) :
      Branches inputs (constraints ++ [constraint]) (seen ++ [constraint.taken])
        (others ++ [constraint.condition.evaluate inputs != 0])

theorem Branches.length_eq {inputs : List Value} {constraints : List Constraint}
    {seen others : List Bool} (branches : Branches inputs constraints seen others) :
    others.length = seen.length := by
  induction branches with
  | nil => rfl
  | plain direction before ih | constrained constraint place before ih => simp [ih]

/-- The run on other inputs goes the same way exactly when all constraints are met. -/
theorem Branches.eq_iff {inputs : List Value} {constraints : List Constraint}
    {seen others : List Bool} (branches : Branches inputs constraints seen others) :
    others = seen ↔ ∀ constraint ∈ constraints,
      (constraint.condition.evaluate inputs != 0) = constraint.taken := by
  induction branches with
  | nil => simp
  | plain direction before ih => rw [List.append_left_inj, ih]
  | constrained constraint place before ih =>
    simp only [List.forall_mem_append, List.forall_mem_singleton, ← ih]
    constructor
    · intro same
      obtain ⟨first, last⟩ := List.append_inj same before.length_eq
      exact ⟨first, List.singleton_inj.mp last⟩
    · rintro ⟨first, last⟩
      rw [first, last]

/-- What the machine says of a run on some inputs, beside the driving run. -/
structure Mirrors (machine : Machine) (seen : State) (inputs : List Value) (state : State) :
    Prop where
  /-- Until the first input nothing is tracked, and the runs are the same. -/
  waiting : machine.awaitingInput = true →
    state = seen ∧ machine.inputCount = 0 ∧ machine.record.memory = .empty
  stack : machine.awaitingInput = false → state.stack = machine.stack.map (·.on inputs)
  bytes : ∀ byte, state.bytes byte =
    Cells.foretold machine.record.memory.cells inputs seen.bytes byte
  consumed : state.consumed = machine.inputCount
  places : machine.record.path.branches.length = seen.directions.length
  directions : Branches inputs machine.record.path.constraints seen.directions state.directions

theorem mirrors_start (policy : PointerPolicy) (own inputs : List Value) (bytes : Bytes) :
    Mirrors (Machine.start policy own) (.start bytes) inputs (.start bytes) where
  waiting _ := ⟨rfl, rfl, rfl⟩
  stack active := by cases active
  bytes _ := rfl
  consumed := rfl
  places := rfl
  directions := .nil

/-- The machine keeps to the run that drives it. -/
structure Follows (machine : Machine) (own : List Value) (state : State) : Prop where
  tracks : Tracks (· ≠ .bool) machine
  inputs : machine.record.inputs = own
  settled : machine.pendingReturn = false
  mirrors : Mirrors machine state own state
  scalar : ∀ typed ∈ state.stack, typed.ty ≠ .struct

theorem follows_start (policy : PointerPolicy) (own : List Value) (bytes : Bytes) :
    Follows (Machine.start policy own) own (.start bytes) where
  tracks := tracks_start _ policy own
  inputs := rfl
  settled := rfl
  mirrors := mirrors_start policy own own bytes
  scalar _ member := by cases member

/-! ## What a program keeps to -/

/-- In the state of the driving run: scalar types without truth values, no address beyond the last
one, comparisons of one type, and nothing on the stack when the first input is asked for. -/
def Regular (state : State) : Instr → Prop
  | .newInput ty address =>
    ty ≠ .struct ∧ ty ≠ .bool ∧ FitsAt address ty.size ∧
      (state.consumed = 0 → state.stack = [])
  | .load _ address ty | .deref _ address ty =>
    ty ≠ .struct ∧ ty ≠ .bool ∧ FitsAt address ty.size
  | .store _ address | .write _ address =>
    ∀ typed ∈ state.stack.head?, FitsAt address typed.bytes
  | .unary _ _ ty | .binary _ _ ty => ty ≠ .struct ∧ ty ≠ .bool
  | .compare _ _ ty =>
    ty ≠ .struct ∧ ty ≠ .bool ∧
      ∀ rhs ∈ state.stack[0]?, ∀ lhs ∈ state.stack[1]?, lhs.ty = rhs.ty
  | .pointer .. | .branch .. | .dropOperands .. => True

/-- Every instruction of a run keeps to the conditions. -/
def RegularRun (inputs : List Value) (state : State) : List Instr → Prop
  | [] => True
  | instr :: rest =>
    Regular state instr ∧
      ∀ next, state.step inputs instr = some next → RegularRun inputs next rest

/-- The pointer that an event goes through does not depend on inputs. -/
def PlainPointer (machine : Machine) : Event → Prop
  | .deref .. => machine.OnTop fun pointer ↦ pointer.isSymbolic = false
  | .write .. => machine.OnTopTwo fun pointer _ ↦ pointer.isSymbolic = false
  | _ => True

instance (state : State) : (instr : Instr) → Decidable (Regular state instr)
  | .newInput .. | .load .. | .deref .. | .unary .. | .binary .. | .compare .. =>
    inferInstanceAs (Decidable (_ ∧ _))
  | .store .. | .write .. => inferInstanceAs (Decidable (∀ _ ∈ _, _))
  | .pointer .. | .branch .. | .dropOperands .. => .isTrue trivial

def decidableRegularRun (inputs : List Value) :
    (state : State) → (program : List Instr) → Decidable (RegularRun inputs state program)
  | _, [] => isTrue trivial
  | state, instr :: rest =>
    match stepped : state.step inputs instr with
    | none => decidable_of_iff (Regular state instr)
      ⟨fun holds ↦ ⟨holds, fun next other ↦ by simp [stepped] at other⟩, fun all ↦ all.1⟩
    | some next =>
      have := decidableRegularRun inputs next rest
      decidable_of_iff (Regular state instr ∧ RegularRun inputs next rest)
        ⟨fun all ↦ ⟨all.1, fun other same ↦ by
          rw [stepped] at same
          exact Option.some.inj same ▸ all.2⟩, fun all ↦ ⟨all.1, all.2 next stepped⟩⟩

instance (inputs : List Value) (state : State) (program : List Instr) :
    Decidable (RegularRun inputs state program) :=
  decidableRegularRun inputs state program

instance (machine : Machine) : (event : Event) → Decidable (PlainPointer machine event)
  | .deref .. => inferInstanceAs (Decidable (machine.OnTop _))
  | .write .. => inferInstanceAs (Decidable (machine.OnTopTwo _))
  | .newInput .. | .alloc .. | .load .. | .store .. | .dropOperands .. | .unary .. | .binary ..
  | .compare .. | .pointer .. | .untracked .. | .branch .. | .call .. | .ret ..
  | .takeResult .. => .isTrue trivial

end Concolic.Straight
