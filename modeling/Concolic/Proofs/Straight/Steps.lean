import Concolic.Proofs.Straight.Mirror

/-!
# Steps of the machine beside two runs

What the driving run reports is honest, and every step that the machine takes on it keeps it a
mirror of the run on other inputs.
-/

namespace Concolic.Straight

open Machine

variable {machine after : Machine} {own inputs : List Value} {seen seenNext state : State}
  {instr : Instr} {next : Step}

/-! ## What the driving run reports -/

theorem State.onTwo_eq_some {combine : TypedValue → TypedValue → TypedValue} :
    state.onTwo combine = some seenNext ↔
      ∃ rhs lhs rest, state.stack = rhs :: lhs :: rest ∧
        seenNext = { state with stack := combine lhs rhs :: rest } := by
  unfold onTwo
  split
  · next rhs lhs rest stack =>
    rw [stack]
    constructor
    · rintro ⟨⟩
      exact ⟨rhs, lhs, rest, rfl, rfl⟩
    · rintro ⟨_, _, _, ⟨⟩, rfl⟩
      rfl
  · next short =>
    constructor
    · rintro ⟨⟩
    · rintro ⟨rhs, lhs, rest, stack, -⟩
      exact absurd stack (short rhs lhs rest)

/-- With an operand on the machine's stack, the program's stack has its value on top. -/
theorem Mirrors.stack_cons (mirrors : Mirrors machine seen inputs state)
    (active : machine.awaitingInput = false) {operand : Operand} {rest : List Operand}
    (stack : machine.stack = operand :: rest) :
    state.stack = operand.on inputs :: rest.map (·.on inputs) := by
  rw [mirrors.stack active, stack, List.map_cons]

namespace Follows

variable (follows : Follows machine own seen)

include follows

theorem active_of_cons {operand : Operand} {rest : List Operand}
    (stack : machine.stack = operand :: rest) : machine.awaitingInput = false := by
  cases waiting : machine.awaitingInput with
  | false => rfl
  | true =>
    rw [follows.tracks.idle waiting] at stack
    contradiction

theorem stack_eq {operand : Operand} {rest : List Operand}
    (stack : machine.stack = operand :: rest) :
    seen.stack = operand.on own :: rest.map (·.on own) :=
  follows.mirrors.stack_cons (follows.active_of_cons stack) stack

theorem formed {operand : Operand} (member : operand ∈ machine.stack) :
    operand.Formed (Tracked (· ≠ .bool) own machine.record.vars) := by
  have formed := follows.tracks.stack operand member
  rwa [follows.inputs] at formed

theorem scalar_operand {operand : Operand} (member : operand ∈ machine.stack) :
    operand.ty ≠ .struct := by
  have active : machine.awaitingInput = false := by
    obtain ⟨top, rest, stack⟩ := List.exists_cons_of_ne_nil (List.ne_nil_of_mem member)
    exact follows.active_of_cons stack
  have scalar := follows.scalar (operand.on own) (by
    rw [follows.mirrors.stack active]
    exact List.mem_map_of_mem member)
  rwa [Operand.ty_on] at scalar

/-- The value and the width that the driving run has for an operand are the recorded ones. -/
theorem recorded {operand : Operand} (member : operand ∈ machine.stack) :
    (operand.on own).value = operand.value ∧ 8 * (operand.on own).bytes = operand.bits :=
  ⟨Operand.value_on_own (follows.formed member) (follows.scalar_operand member),
    Operand.bits_on own (follows.formed member) (follows.scalar_operand member)⟩

theorem bytes_recorded {operand : Operand} (member : operand ∈ machine.stack) :
    (operand.on own).bytes = operand.bytes := by
  have bits := (follows.recorded member).2
  unfold Operand.bits at bits
  omega

theorem fits_top {address : Address} {operand : Operand} {rest : List Operand}
    (stack : machine.stack = operand :: rest)
    (fits : ∀ typed ∈ seen.stack.head?, FitsAt address typed.bytes) :
    FitsAt address operand.bytes := by
  have onSeen : operand.on own ∈ seen.stack.head? := by
    rw [follows.stack_eq stack]
    rfl
  have member : operand ∈ machine.stack := stack ▸ List.mem_cons_self
  exact follows.bytes_recorded member ▸ fits _ onSeen

theorem top_unary {id : InstructionId} {op : UnaryOp} {ty : CType} {operand : Operand}
    {rest : List Operand} (stack : machine.stack = operand :: rest)
    (stepped : seen.step own (.unary id op ty) = some seenNext) :
    seenNext.top = (TypedValue.of ty (op.apply ty operand.bits operand.value)).value := by
  obtain ⟨value, bits⟩ := follows.recorded (stack ▸ List.mem_cons_self)
  rw [State.step, follows.stack_eq stack] at stepped
  cases stepped
  rw [← value, ← bits]
  rfl

theorem top_onTwo {combine : TypedValue → TypedValue → TypedValue} {lhs rhs : Operand}
    {rest : List Operand} (stack : machine.stack = rhs :: lhs :: rest)
    (stepped : seen.onTwo combine = some seenNext) :
    seenNext.top = (combine (lhs.on own) (rhs.on own)).value := by
  obtain ⟨right, left, below, shape, rfl⟩ := State.onTwo_eq_some.mp stepped
  rw [follows.stack_eq stack] at shape
  cases shape
  rfl

theorem top_binary {id : InstructionId} {op : BinaryOp} {ty : CType} {lhs rhs : Operand}
    {rest : List Operand} (stack : machine.stack = rhs :: lhs :: rest)
    (stepped : seen.step own (.binary id op ty) = some seenNext) :
    seenNext.top = (TypedValue.of ty (op.apply ty lhs.value rhs.value)).value := by
  have left := follows.recorded (show lhs ∈ machine.stack by simp [stack])
  have right := follows.recorded (show rhs ∈ machine.stack by simp [stack])
  rw [follows.top_onTwo stack stepped, left.1, right.1]

theorem top_compare {id : InstructionId} {op : CompareOp} {ty : CType} {lhs rhs : Operand}
    {rest : List Operand} (stack : machine.stack = rhs :: lhs :: rest)
    (stepped : seen.step own (.compare id op ty) = some seenNext) :
    seenNext.top =
      (TypedValue.of ty (flag (op.apply (max lhs.bits rhs.bits) lhs.value rhs.value))).value := by
  have left := follows.recorded (show lhs ∈ machine.stack by simp [stack])
  have right := follows.recorded (show rhs ∈ machine.stack by simp [stack])
  rw [follows.top_onTwo stack stepped, left.1, left.2, right.1, right.2]

theorem top_pointer {id : InstructionId} {op : PointerOp} {size : BitVec 64} {lhs rhs : Operand}
    {rest : List Operand} (stack : machine.stack = rhs :: lhs :: rest)
    (stepped : seen.step own (.pointer id op size) = some seenNext) :
    seenNext.top =
      (TypedValue.of op.resultType (op.apply size lhs.value rhs.value)).value := by
  have left := follows.recorded (show lhs ∈ machine.stack by simp [stack])
  have right := follows.recorded (show rhs ∈ machine.stack by simp [stack])
  rw [follows.top_onTwo stack stepped, left.1, right.1]

/-- The operands of a regular comparison have one type. -/
theorem sameType {id : InstructionId} {op : CompareOp} {ty : CType} {lhs rhs : Operand}
    {rest : List Operand} (stack : machine.stack = rhs :: lhs :: rest)
    (regular : Regular seen (.compare id op ty)) : lhs.ty = rhs.ty := by
  have same := regular.2.2
  rw [follows.stack_eq stack] at same
  simpa [Operand.ty_on] using same

/-- What the driving run reports is honest. -/
theorem honest (regular : Regular seen instr)
    (stepped : seen.step own instr = some seenNext) :
    machine.Honest (instr.event seenNext) := by
  cases instr with
  | newInput ty address => exact regular.2.2.1
  | load id address ty | deref id address ty =>
    exact fun aggregate ↦ absurd aggregate regular.1
  | store id address | write id address =>
    exact fun operand rest stack ↦ follows.fits_top stack regular
  | dropOperands id => trivial
  | unary id op ty =>
    refine ⟨regular.1, fun operand rest stack ↦ ?_⟩
    refine ⟨follows.scalar_operand (stack ▸ List.mem_cons_self), fun _ ↦ ?_⟩
    exact (follows.top_unary stack stepped).trans (op.normalize_apply ty _ _)
  | binary id op ty =>
    refine ⟨regular.1, regular.2, fun rhs lhs rest stack ↦ ?_⟩
    have left : lhs ∈ machine.stack := by simp [stack]
    have right : rhs ∈ machine.stack := by simp [stack]
    refine ⟨follows.scalar_operand left, follows.scalar_operand right, fun _ ↦ ?_⟩
    exact (follows.top_binary stack stepped).trans (op.normalize_apply ty _ _)
  | compare id op ty =>
    refine ⟨regular.1, fun rhs lhs rest stack ↦ ?_⟩
    have left : lhs ∈ machine.stack := by simp [stack]
    have right : rhs ∈ machine.stack := by simp [stack]
    refine ⟨follows.scalar_operand left, follows.scalar_operand right, fun _ ↦ ?_,
      fun _ ↦ follows.sameType stack regular⟩
    exact (follows.top_compare stack stepped).trans (ty.normalize_flag _)
  | pointer id op size =>
    intro rhs lhs rest stack
    have left : lhs ∈ machine.stack := by simp [stack]
    have right : rhs ∈ machine.stack := by simp [stack]
    refine ⟨follows.scalar_operand left, follows.scalar_operand right, fun _ ↦ ?_⟩
    exact (follows.top_pointer stack stepped).trans (op.normalize_resultType _)
  | branch id site =>
    intro operand rest stack
    refine ⟨follows.scalar_operand (stack ▸ List.mem_cons_self), ?_⟩
    rw [State.step, follows.stack_eq stack] at stepped
    cases stepped
    simp only [List.getLast?_append, List.getLast?_singleton, Option.some_or, Option.getD_some,
      (follows.recorded (stack ▸ List.mem_cons_self)).1]

end Follows

/-! ## Steps that change the stack alone -/

/-- A step that changes the stack alone, on the inputs to what the machine holds for them. -/
structure StackStep (machine next : Machine) (inputs : List Value) (state : State)
    (instr : Instr) : Prop where
  stepped : state.step inputs instr =
    some { state with stack := next.stack.map (·.on inputs) }
  record : next.record = machine.record
  count : next.inputCount = machine.inputCount
  active : next.awaitingInput = false

section StackSteps

variable (follows : Follows machine own seen) (mirrors : Mirrors machine seen inputs state)
  (active : machine.awaitingInput = false)

include follows mirrors active

omit active in
/-- What the machine reads for a value of the driving run is on other inputs what is there. -/
theorem on_reading {address : Address} {ty : CType} {reading : Reading}
    (scalar : ty ≠ .struct) (notBool : ty ≠ .bool) (fits : FitsAt address ty.size)
    (read : machine.memory.readReporting address ty (seen.fetch address ty).value = .ok reading) :
    reading.operand.on inputs = state.fetch address ty := by
  have observed : TypedValue.of ty (seen.fetch address ty).value = seen.fetch address ty :=
    congrArg (TypedValue.mk ty) (ty.normalize_normalize _)
  have cells := follows.tracks.cells
  rw [follows.inputs] at cells
  rw [Memory.operand_of_read follows.tracks.layout read, observed]
  exact Memory.on_loaded inputs follows.tracks.layout cells notBool scalar fits
    follows.mirrors.bytes mirrors.bytes

theorem step_load {id : InstructionId} {address : Address} {ty : CType}
    (regular : Regular seen (.load id address ty))
    (ran : machine.load id address ty (seen.fetch address ty).value = .ok next) :
    StackStep machine next.machine inputs state (.load id address ty) := by
  obtain ⟨scalar, notBool, fits⟩ := regular
  rcases load_inv ran with ⟨waiting, -⟩ | ⟨-, reading, read, result⟩
  · rw [active] at waiting
    contradiction
  · have value := on_reading follows mirrors scalar notBool fits read
    rw [follows.settled, if_neg Bool.false_ne_true] at result
    rw [result]
    refine ⟨?_, rfl, rfl, active⟩
    rw [State.step, push, List.map_cons, value, mirrors.stack active]

theorem step_deref {id : InstructionId} {address : Address} {ty : CType}
    (regular : Regular seen (.deref id address ty))
    (plain : machine.OnTop fun pointer ↦ pointer.isSymbolic = false)
    (ran : machine.deref id address ty (seen.fetch address ty).value = .ok next) :
    StackStep machine next.machine inputs state (.deref id address ty) := by
  obtain ⟨scalar, notBool, fits⟩ := regular
  rcases deref_inv ran with ⟨waiting, -⟩ | ⟨-, pointer, rest, reading, stack, read, result⟩
  · rw [active] at waiting
    contradiction
  · rw [plain pointer rest stack, if_neg Bool.false_ne_true] at read
    have value := on_reading follows mirrors scalar notBool fits read
    rw [result]
    refine ⟨?_, rfl, rfl, active⟩
    rw [State.step, mirrors.stack_cons active stack, List.map_cons, value]

omit follows mirrors in
theorem step_dropOperands {id : InstructionId}
    (ran : machine.dropOperands id = .ok next) :
    StackStep machine next.machine inputs state (.dropOperands id) := by
  rcases dropOperands_inv ran with ⟨waiting, -⟩ | ⟨-, result⟩
  · rw [active] at waiting
    contradiction
  · rw [result]
    exact ⟨rfl, rfl, rfl, active⟩

theorem step_unary {id : InstructionId} {op : UnaryOp} {ty : CType}
    (stepped : seen.step own (.unary id op ty) = some seenNext)
    (ran : machine.unary id op ty seenNext.top = .ok next) :
    StackStep machine next.machine inputs state (.unary id op ty) := by
  rcases unary_inv ran with ⟨waiting, -⟩ | ⟨-, operand, rest, stack, result⟩
  · rw [active] at waiting
    contradiction
  · have member : operand ∈ machine.stack := stack ▸ List.mem_cons_self
    have value := on_applyUnary inputs op (follows.formed member)
      (follows.scalar_operand member) (follows.top_unary stack stepped)
    rw [result]
    refine ⟨?_, rfl, rfl, active⟩
    rw [State.step, mirrors.stack_cons active stack, List.map_cons, value]

omit follows in
/-- An operator on two operands, when its result is on the inputs what the program computes. -/
theorem step_onTwo {id : InstructionId} {combine : Operand → Operand → Operand}
    {compute : TypedValue → TypedValue → TypedValue}
    (same : state.step inputs instr = state.onTwo compute)
    (value : ∀ lhs rhs rest, machine.stack = rhs :: lhs :: rest →
      (combine lhs rhs).on inputs = compute (lhs.on inputs) (rhs.on inputs))
    (ran : machine.onTwo id combine = .ok next) :
    StackStep machine next.machine inputs state instr := by
  rcases onTwo_inv ran with ⟨waiting, -⟩ | ⟨-, rhs, lhs, rest, stack, result⟩
  · rw [active] at waiting
    contradiction
  · rw [result]
    refine ⟨?_, rfl, rfl, active⟩
    rw [same, State.onTwo, mirrors.stack_cons active stack, List.map_cons, List.map_cons,
      value lhs rhs rest stack]

end StackSteps

/-- A step that changes the stack alone keeps the mirror. -/
theorem StackStep.mirrors (mirrors : Mirrors machine seen inputs state)
    (onSeen : StackStep machine after own seen instr)
    (onState : StackStep machine after inputs state instr)
    (stepped : seen.step own instr = some seenNext) :
    ∃ stateNext, state.step inputs instr = some stateNext ∧
      Mirrors after seenNext inputs stateNext := by
  have same := Option.some.inj (stepped.symm.trans onSeen.stepped)
  subst same
  refine ⟨_, onState.stepped, ?_⟩
  constructor
  · intro waiting
    rw [onSeen.active] at waiting
    contradiction
  · exact fun _ ↦ rfl
  · rw [onSeen.record]
    exact mirrors.bytes
  · rw [onSeen.count]
    exact mirrors.consumed
  · rw [onSeen.record]
    exact mirrors.places
  · rw [onSeen.record]
    exact mirrors.directions

/-! ## Steps that store -/

/-- Storing the topmost operand and dropping others keeps the mirror. -/
theorem mirrors_stored {address : Address} {operand : Operand} {memory : Memory}
    (follows : Follows machine own seen) (mirrors : Mirrors machine seen inputs state)
    (member : operand ∈ machine.stack)
    (fits : FitsAt address operand.bytes)
    (stored : machine.memory.store address operand = .ok memory)
    (record : after.record = { machine.record with memory })
    (count : after.inputCount = machine.inputCount) (still : after.awaitingInput = false) :
    Mirrors after
      { seen with
        bytes := storeBytes seen.bytes address (operand.on own).bytes (operand.on own).value
        stack := after.stack.map (·.on own) }
      inputs
      { state with
        bytes :=
          storeBytes state.bytes address (operand.on inputs).bytes (operand.on inputs).value
        stack := after.stack.map (·.on inputs) } := by
  have formed := follows.formed member
  have scalar := follows.scalar_operand member
  have width (others : List Value) : (operand.on others).bytes = operand.bytes := by
    have bits := Operand.bits_on others formed scalar
    unfold Operand.bits at bits
    omega
  obtain ⟨spec, -⟩ := Memory.stored_of_store follows.tracks.layout
    (Tracked.cut_closed fun _ notBool ↦ notBool) formed fits stored
  constructor
  · intro waiting
    rw [still] at waiting
    contradiction
  · exact fun _ ↦ rfl
  · rw [record, width, width]
    exact Memory.foretold_stored inputs formed scalar spec mirrors.bytes
  · rw [count]
    exact mirrors.consumed
  · rw [record]
    exact mirrors.places
  · rw [record]
    exact mirrors.directions

theorem mirrors_store {id : InstructionId} {address : Address}
    (follows : Follows machine own seen) (mirrors : Mirrors machine seen inputs state)
    (active : machine.awaitingInput = false)
    (regular : Regular seen (.store id address))
    (stepped : seen.step own (.store id address) = some seenNext)
    (ran : machine.store id address = .ok next) :
    ∃ stateNext, state.step inputs (.store id address) = some stateNext ∧
      Mirrors next.machine seenNext inputs stateNext := by
  rcases store_inv ran with ⟨waiting, -⟩ | ⟨-, operand, rest, memory, stack, stored, result⟩
  · rw [active] at waiting
    contradiction
  · have member : operand ∈ machine.stack := stack ▸ List.mem_cons_self
    have fits := follows.fits_top stack regular
    rw [State.step, follows.stack_eq stack] at stepped
    rw [State.step, mirrors.stack_cons active stack, ← Option.some.inj stepped, result]
    exact ⟨_, rfl, mirrors_stored follows mirrors member fits stored rfl rfl active⟩

theorem mirrors_write {id : InstructionId} {address : Address}
    (follows : Follows machine own seen) (mirrors : Mirrors machine seen inputs state)
    (active : machine.awaitingInput = false)
    (regular : Regular seen (.write id address))
    (stepped : seen.step own (.write id address) = some seenNext)
    (ran : machine.write id address = .ok next) :
    ∃ stateNext, state.step inputs (.write id address) = some stateNext ∧
      Mirrors next.machine seenNext inputs stateNext := by
  rcases write_inv ran with
    ⟨waiting, -⟩ | ⟨-, operand, pointer, rest, memory, stack, stored, result⟩
  · rw [active] at waiting
    contradiction
  · have member : operand ∈ machine.stack := stack ▸ List.mem_cons_self
    have fits := follows.fits_top stack regular
    rw [State.step, follows.stack_eq stack] at stepped
    rw [State.step, mirrors.stack_cons active stack, ← Option.some.inj stepped, result]
    exact ⟨_, rfl, mirrors_stored follows mirrors member fits stored rfl rfl active⟩

/-- The value of an input on other inputs is the entry of its number there. -/
theorem value_on_mkInput {count : Nat} (numbered : count < 2 ^ 32) {ty : CType}
    {entry : Value} (given : inputs[count]? = some entry) (recorded : Value) :
    (Operand.on inputs (.symbolic (.mkInput (.ofNat 32 count) ty recorded))).value =
      ty.normalize entry := by
  rw [← Nat.mod_eq_of_lt numbered] at given
  exact Expr.evaluate_mkInput given ty recorded

/-- A new input is stored like an operand, and is the next one of each run. -/
theorem mirrors_newInput {ty : CType} {address : Address}
    (follows : Follows machine own seen) (mirrors : Mirrors machine seen inputs state)
    (long : inputs.length = own.length) (numbered : machine.inputCount < 2 ^ 32)
    (regular : Regular seen (.newInput ty address))
    (stepped : seen.step own (.newInput ty address) = some seenNext)
    (ran : machine.newInput ty address = .ok next) :
    ∃ stateNext, state.step inputs (.newInput ty address) = some stateNext ∧
      Mirrors next.machine seenNext inputs stateNext := by
  obtain ⟨scalar, notBool, fits, prompt⟩ := regular
  obtain ⟨-, entry, memory, given, wrote, result⟩ := newInput_inv ran
  have count : seen.consumed = machine.inputCount := follows.mirrors.consumed
  rw [follows.inputs] at given
  rw [count] at prompt
  obtain ⟨other, there⟩ : ∃ other, inputs[machine.inputCount]? = some other := by
    obtain ⟨below, -⟩ := List.getElem?_eq_some_iff.mp given
    exact ⟨_, List.getElem?_eq_getElem (long ▸ below)⟩
  let operand : Operand :=
    .symbolic (.mkInput (.ofNat 32 machine.inputCount) ty (ty.normalize entry))
  have formed : operand.Formed (Tracked (· ≠ .bool) own (WordMap.empty.insert _ ty)) :=
    formed_mkInput numbered scalar notBool given .empty
  obtain ⟨spec, -⟩ := Memory.stored_of_write follows.tracks.layout
    (Tracked.cut_closed fun _ notBool ↦ notBool) formed fits rfl wrote
  have bytes := Memory.foretold_stored inputs formed scalar spec mirrors.bytes
  rw [value_on_mkInput numbered given, value_on_mkInput numbered there] at bytes
  rw [State.step, count, given] at stepped
  rw [State.step, mirrors.consumed, there, ← Option.some.inj stepped, result]
  refine ⟨_, rfl, ?_⟩
  constructor
  · intro waiting
    contradiction
  · intro _
    cases active : machine.awaitingInput with
    | false => exact mirrors.stack active
    | true =>
      obtain ⟨same, none, -⟩ := mirrors.waiting active
      show state.stack = machine.stack.map (·.on inputs)
      rw [same, prompt none, follows.tracks.idle active]
      rfl
  · exact bytes
  · rfl
  · exact mirrors.places
  · exact mirrors.directions

/-! ## Branches -/

/-- Dropping the topmost operand and noting a direction on both runs keeps the mirror. -/
theorem mirrors_noted {path : Path} {site : BranchId} {way other : Bool}
    (mirrors : Mirrors machine seen inputs state)
    (record : after.record = { machine.record with path })
    (site : path.branches = machine.record.path.branches ++ [site])
    (directions : Branches inputs path.constraints (seen.directions ++ [way])
      (state.directions ++ [other]))
    (count : after.inputCount = machine.inputCount) (still : after.awaitingInput = false) :
    Mirrors after
      { seen with
        stack := after.stack.map (·.on own)
        directions := seen.directions ++ [way] }
      inputs
      { state with
        stack := after.stack.map (·.on inputs)
        directions := state.directions ++ [other] } := by
  constructor
  · intro waiting
    rw [still] at waiting
    contradiction
  · exact fun _ ↦ rfl
  · rw [record]
    exact mirrors.bytes
  · rw [count]
    exact mirrors.consumed
  · rw [record, site, List.length_append, List.length_append, mirrors.places]
    rfl
  · rw [record]
    exact directions

theorem mirrors_branch {id : InstructionId} {site : BranchId}
    (follows : Follows machine own seen) (mirrors : Mirrors machine seen inputs state)
    (active : machine.awaitingInput = false)
    (stepped : seen.step own (.branch id site) = some seenNext)
    (ran : machine.branch id site (seenNext.directions.getLast?.getD false) = .ok next) :
    ∃ stateNext, state.step inputs (.branch id site) = some stateNext ∧
      Mirrors next.machine seenNext inputs stateNext := by
  rcases branch_inv ran with ⟨waiting, -⟩ | ⟨-, ⟨typed, stack, result⟩ | ⟨e, stack, result⟩⟩
  · rw [active] at waiting
    contradiction
  · rw [State.step, follows.stack_eq stack] at stepped
    rw [State.step, mirrors.stack_cons active stack, ← Option.some.inj stepped, result]
    exact ⟨_, rfl, mirrors_noted mirrors rfl rfl (mirrors.directions.plain _) rfl active⟩
  · have member : .symbolic e ∈ machine.stack := stack ▸ List.mem_cons_self
    obtain ⟨tracked, isScalar⟩ :=
      Operand.holds_of_symbolic (follows.formed member) (follows.scalar_operand member)
    rw [State.step, follows.stack_eq stack] at stepped
    have last : seenNext.directions.getLast?.getD false = (e.evaluate own != 0) := by
      rw [← Option.some.inj stepped, List.getLast?_concat]
      rfl
    have branches := mirrors.directions.constrained
      ⟨.ofNat 64 machine.record.path.branches.length, e.condition, e.evaluate own != 0⟩
      (congrArg (BitVec.ofNat 64) mirrors.places)
    rw [Expr.evaluate_condition (fun _ ↦ tracked.here.shaped.isConverted) isScalar.1] at branches
    rw [State.step, mirrors.stack_cons active stack, ← Option.some.inj stepped, result, last]
    exact ⟨_, rfl, mirrors_noted mirrors rfl rfl branches rfl active⟩

end Concolic.Straight
