import Concolic.Proofs.Machine.Typed

/-!
# Results of calls

A function that returns with one operand on the stack leaves it as its result.  The result stays
there, and later events may change its value, until a load, a call, another return, or the end of
a statement drops it, or the caller takes it.  A caller that takes the result of a function that is
not instrumented gets the reported value, unless an earlier result is still on the stack.
-/

namespace Concolic

/-- The event decides anew whether a result is on the stack. -/
def Event.settles : Event → Bool
  | .load .. | .dropOperands .. | .call .. | .ret .. | .takeResult .. => true
  | _ => false

/-- The value of a single operand on the stack after an event that leaves one there. -/
def Event.revalue (value : Value) : Event → Value
  | .deref _ _ ty observed | .unary _ _ ty observed => ty.normalize observed
  | _ => value

namespace Machine

variable {policy : PointerPolicy} {inputs : List Value} {machine : Machine} {step : Step}
  {events : List Event} {event : Event} {operand : Operand} {result : Value}

/-- A function returned with one operand on the stack, no event since has taken, dropped or
replaced that operand as a result, and its value has become `result`. -/
def Unclaimed (policy : PointerPolicy) (inputs : List Value) (events : List Event)
    (result : Value) : Prop :=
  ∃ before id since returning operand, events = before ++ .ret id :: since ∧
    (start policy inputs).run before = .ok returning ∧ returning.awaitingInput = false ∧
    returning.stack = [operand] ∧ (∀ event ∈ since, event.settles = false) ∧
    result = since.foldl Event.revalue operand.value

/-! ## The history of a result -/

/-- The last event is the one that a history is split at, or it stands behind it. -/
theorem split_concat {before since : List Event} {middle : Event}
    (split : events ++ [event] = before ++ middle :: since) :
    (before = events ∧ middle = event ∧ since = []) ∨
      ∃ front, since = front ++ [event] ∧ events = before ++ middle :: front := by
  rcases List.eq_nil_or_concat since with rfl | ⟨front, last, rfl⟩
  · obtain ⟨same, final⟩ := List.append_inj' split rfl
    exact .inl ⟨same.symm, (List.singleton_inj.mp final).symm, rfl⟩
  · rw [List.concat_eq_append, ← List.cons_append, ← List.append_assoc] at split
    obtain ⟨same, final⟩ := List.append_inj' split rfl
    obtain rfl := List.singleton_inj.mp final
    exact .inr ⟨front, List.concat_eq_append, same⟩

theorem not_unclaimed_nil : ¬Unclaimed policy inputs [] result := by
  rintro ⟨before, id, since, returning, operand, split, -⟩
  simp at split

/-- A return with one operand leaves that operand. -/
theorem unclaimed_ret_iff {id : InstructionId}
    (ran : (start policy inputs).run events = .ok machine) :
    Unclaimed policy inputs (events ++ [.ret id]) result ↔
      machine.awaitingInput = false ∧ ∃ operand, machine.stack = [operand] ∧
        result = operand.value := by
  constructor
  · rintro ⟨before, other, since, returning, operand, split, ranBefore, active, stack, quiet, same⟩
    rcases split_concat split with ⟨rfl, -, rfl⟩ | ⟨front, rfl, -⟩
    · obtain rfl := Except.ok.inj (ran.symm.trans ranBefore)
      exact ⟨active, operand, stack, same⟩
    · -- The last event would be a return that settles nothing.
      exact absurd (quiet (.ret id) (by simp)) (by simp [Event.settles])
  · rintro ⟨active, operand, stack, rfl⟩
    exact ⟨events, id, [], machine, operand, rfl, ran, active, stack,
      fun _ member ↦ absurd member List.not_mem_nil, rfl⟩

/-- Any other event that settles leaves no result. -/
theorem not_unclaimed_of_settles (settles : event.settles = true)
    (noReturn : ∀ id, event ≠ .ret id) : ¬Unclaimed policy inputs (events ++ [event]) result := by
  rintro ⟨before, id, since, returning, operand, split, -, -, -, quiet, -⟩
  rcases split_concat split with ⟨-, last, -⟩ | ⟨front, rfl, -⟩
  · exact noReturn id last.symm
  · rw [quiet event (by simp)] at settles
    contradiction

/-- An event that settles nothing changes the value of the result at most. -/
theorem unclaimed_quiet_iff (quiet : event.settles = false) :
    Unclaimed policy inputs (events ++ [event]) result ↔
      ∃ earlier, Unclaimed policy inputs events earlier ∧ result = event.revalue earlier := by
  constructor
  · rintro ⟨before, id, since, returning, operand, split, ran, active, stack, still, same⟩
    rcases split_concat split with ⟨-, rfl, -⟩ | ⟨front, rfl, rfl⟩
    · cases quiet
    · refine ⟨_, ⟨before, id, front, returning, operand, rfl, ran, active, stack,
        fun event member ↦ still event (by simp [member]), rfl⟩, ?_⟩
      rw [same, List.foldl_append, List.foldl_cons, List.foldl_nil]
  · rintro ⟨earlier, ⟨before, id, since, returning, operand, rfl, ran, active, stack, still, rfl⟩,
      rfl⟩
    refine ⟨before, id, since ++ [event], returning, operand, by simp, ran, active, stack, ?_, ?_⟩
    · intro other member
      rcases List.mem_append.mp member with old | new
      · exact still other old
      · obtain rfl := List.mem_singleton.mp new
        exact quiet
    · rw [List.foldl_append, List.foldl_cons, List.foldl_nil]

/-! ## The result on the stack -/

/-- What an event that settles nothing does to the flag, and to a stack of one operand at most. -/
structure Retains (event : Event) (machine next : Machine) : Prop where
  pending : next.pendingReturn = machine.pendingReturn
  empty : machine.stack = [] → next.stack = []
  single : ∀ operand, machine.stack = [operand] →
    next.stack = [] ∨ ∃ kept, next.stack = [kept] ∧ kept.value = event.revalue operand.value

section Retains

variable {next : Machine} {top second : Operand} {rest : List Operand}

theorem retains_same (pending : next.pendingReturn = machine.pendingReturn)
    (same : next.stack = machine.stack) (kept : ∀ value, event.revalue value = value) :
    Retains event machine next where
  pending := pending
  empty stack := same.trans stack
  single operand stack := .inr ⟨operand, same.trans stack, (kept operand.value).symm⟩

theorem retains_pop (pending : next.pendingReturn = machine.pendingReturn)
    (stack : machine.stack = top :: rest) (popped : next.stack = rest) :
    Retains event machine next where
  pending := pending
  empty none := by simp [stack] at none
  single operand one := by
    rw [stack, List.cons.injEq] at one
    exact .inl (popped.trans one.2)

theorem retains_replace {new : Operand} (pending : next.pendingReturn = machine.pendingReturn)
    (stack : machine.stack = top :: rest) (replaced : next.stack = new :: rest)
    (value : ∀ old, event.revalue old = new.value) : Retains event machine next where
  pending := pending
  empty none := by simp [stack] at none
  single operand one := by
    rw [stack, List.cons.injEq] at one
    exact .inr ⟨new, one.2 ▸ replaced, (value operand.value).symm⟩

theorem retains_two (pending : next.pendingReturn = machine.pendingReturn)
    (stack : machine.stack = top :: second :: rest) : Retains event machine next where
  pending := pending
  empty none := by simp [stack] at none
  single operand one := by simp [stack] at one

end Retains

theorem value_applyUnary (op : UnaryOp) (operand : Operand) (ty : CType) (value : Value) :
    (applyUnary op operand ty value).value = ty.normalize value := by
  cases operand <;> rfl

/-- What a policy reads records the observed value. -/
theorem value_read {address : Address} {ty : CType} {value : Value} {reading : Reading}
    (all : AllCells (Expr.Everywhere Expr.FitsType) machine.memory.cells)
    (read : machine.policy.read machine.memory address ty value = .ok reading) :
    reading.operand.value = ty.normalize value := by
  cases policy : machine.policy with
  | forget =>
    rw [policy] at read
    cases read
    rfl
  | follow =>
    rw [policy] at read
    exact Memory.value_readReporting all read

theorem retains_step (all : AllCells (Expr.Everywhere Expr.FitsType) machine.memory.cells)
    (active : machine.awaitingInput = false) (quiet : event.settles = false)
    (ran : machine.step event = .ok step) : Retains event machine step.machine := by
  have waiting : ¬machine.awaitingInput = true := by simp [active]
  cases event with
  | load | dropOperands | call | ret | takeResult => cases quiet
  | newInput ty address =>
    obtain ⟨-, entry, memory, -, -, result⟩ := newInput_inv ran
    rw [result]
    exact retains_same rfl rfl fun _ ↦ rfl
  | alloc id address size =>
    obtain ⟨memory, -, result⟩ := alloc_inv ran
    rw [result]
    exact retains_same rfl rfl fun _ ↦ rfl
  | deref id address ty value =>
    obtain ⟨-, pointer, rest, reading, stack, read, result⟩ :=
      (deref_inv ran).resolve_left (waiting ·.1)
    have observed : reading.operand.value = ty.normalize value := by
      split at read
      · exact value_read all read
      · exact Memory.value_readReporting all read
    rw [result]
    exact retains_replace rfl stack rfl fun _ ↦ observed.symm
  | store id address =>
    obtain ⟨-, operand, rest, memory, stack, -, result⟩ :=
      (store_inv ran).resolve_left (waiting ·.1)
    rw [result]
    exact retains_pop rfl stack rfl
  | write id address =>
    obtain ⟨-, operand, pointer, rest, memory, stack, -, result⟩ :=
      (write_inv ran).resolve_left (waiting ·.1)
    rw [result]
    exact retains_two rfl stack
  | unary id op ty value =>
    obtain ⟨-, operand, rest, stack, result⟩ := (unary_inv ran).resolve_left (waiting ·.1)
    rw [result]
    exact retains_replace rfl stack rfl fun _ ↦ (value_applyUnary op operand ty value).symm
  | binary | compare | pointer =>
    simp only [Machine.step, Machine.binary, Machine.compare, Machine.pointer] at ran
    obtain ⟨-, rhs, lhs, rest, stack, result⟩ := (onTwo_inv ran).resolve_left (waiting ·.1)
    rw [result]
    exact retains_two rfl stack
  | untracked id ty value =>
    obtain ⟨-, rhs, lhs, rest, stack, result⟩ := (untracked_inv ran).resolve_left (waiting ·.1)
    rw [result]
    exact retains_two rfl stack
  | branch id branch taken =>
    rcases (branch_inv ran).resolve_left (waiting ·.1) with
      ⟨-, ⟨typed, stack, result⟩ | ⟨e, stack, result⟩⟩
    · rw [result]
      exact retains_pop rfl stack rfl
    · rw [result]
      exact retains_pop rfl stack rfl

/-- After an event that settles and is no return nothing is pending. -/
theorem pendingReturn_of_settles (active : machine.awaitingInput = false)
    (settles : event.settles = true) (noReturn : ∀ id, event ≠ .ret id)
    (ran : machine.step event = .ok step) : step.machine.pendingReturn = false := by
  have waiting : ¬machine.awaitingInput = true := by simp [active]
  cases event with
  | load id address ty value =>
    obtain ⟨-, reading, -, result⟩ := (load_inv ran).resolve_left (waiting ·.1)
    rw [result]
    cases pending : machine.pendingReturn
    · exact pending
    · rfl
  | dropOperands id =>
    obtain ⟨-, result⟩ := (dropOperands_inv ran).resolve_left (waiting ·.1)
    rw [result]
    rfl
  | call id function =>
    rw [call_inv ran]
    rfl
  | ret id => exact absurd rfl (noReturn id)
  | takeResult id ty value =>
    rcases (takeResult_inv ran).resolve_left (waiting ·.1) with
      ⟨-, ⟨-, -, result⟩ | ⟨nothing, result⟩⟩
    · rw [result]
    · rw [result]
      exact nothing
  | _ => cases settles

/-- The flag of the machine is set while a result is unclaimed, and the result is the value of the
only operand on the stack, unless that has been stored or branched on. -/
structure Accounts (unclaimed : Value → Prop) (machine : Machine) : Prop where
  settled : machine.pendingReturn = false → ∀ result, ¬unclaimed result
  pending : machine.pendingReturn = true → machine.stack = [] ∨
    ∃ operand, machine.stack = [operand] ∧ ∀ result, unclaimed result ↔ result = operand.value

theorem Accounts.quiet (accounts : machine.Accounts (Unclaimed policy inputs events))
    (quiet : event.settles = false) (retains : Retains event machine step.machine) :
    step.machine.Accounts (Unclaimed policy inputs (events ++ [event])) where
  settled nothing result unclaimed := by
    obtain ⟨earlier, still, -⟩ := (unclaimed_quiet_iff quiet).mp unclaimed
    exact accounts.settled (retains.pending ▸ nothing) earlier still
  pending some := by
    rcases accounts.pending (retains.pending ▸ some) with stack | ⟨operand, stack, only⟩
    · exact .inl (retains.empty stack)
    · refine (retains.single operand stack).imp_right fun ⟨kept, single, value⟩ ↦
        ⟨kept, single, fun result ↦ ?_⟩
      rw [unclaimed_quiet_iff quiet, value]
      simp only [only, exists_eq_left]

theorem accounts_ret {id : InstructionId} (ran : (start policy inputs).run events = .ok machine)
    (active : machine.awaitingInput = false) (stepped : machine.step (.ret id) = .ok step) :
    step.machine.Accounts (Unclaimed policy inputs (events ++ [.ret id])) := by
  obtain ⟨scope, scopes, pending, -, flag, result⟩ := ret_inv stepped
  obtain ⟨-, short, rfl⟩ := flag.resolve_left fun waiting ↦ by simp [active] at waiting
  have unclaimed (value : Value) : Unclaimed policy inputs (events ++ [.ret id]) value ↔
      machine.awaitingInput = false ∧ ∃ operand, machine.stack = [operand] ∧
        value = operand.value := unclaimed_ret_iff ran
  rw [result]
  constructor
  · intro nothing value claim
    obtain ⟨-, operand, stack, -⟩ := (unclaimed value).mp claim
    simp [stack] at nothing
  · intro some
    obtain ⟨operand, stack⟩ := List.length_eq_one_iff.mp (by simpa using some)
    refine .inr ⟨operand, stack, fun value ↦ ?_⟩
    rw [unclaimed]
    simp [active, stack]

theorem askedTypes_of_waiting (ran : (start policy inputs).run events = .ok machine)
    (waiting : machine.awaitingInput = true) : askedTypes events = [] := by
  simpa [awaitingInput_run rfl ran] using waiting

/-- Before the first input nothing returns a result. -/
theorem not_unclaimed_of_waiting (ran : (start policy inputs).run events = .ok machine)
    (waiting : machine.awaitingInput = true) : ¬Unclaimed policy inputs events result := by
  rintro ⟨before, id, since, returning, operand, rfl, ranBefore, active, -⟩
  have quiet := askedTypes_of_waiting ran waiting
  rw [askedTypes, List.filterMap_append, List.append_eq_nil_iff] at quiet
  rw [awaitingInput_run rfl ranBefore, askedTypes, quiet.1] at active
  contradiction

theorem accounts_waiting (ran : (start policy inputs).run events = .ok machine)
    (waiting : machine.awaitingInput = true) (stepped : machine.step event = .ok step) :
    step.machine.Accounts (Unclaimed policy inputs (events ++ [event])) := by
  have untouched : machine.Untouched :=
    (untouched_start policy inputs).run rfl (askedTypes_of_waiting ran waiting) ran
  constructor
  · intro _ result unclaimed
    cases settles : event.settles with
    | false =>
      obtain ⟨earlier, still, -⟩ := (unclaimed_quiet_iff settles).mp unclaimed
      exact not_unclaimed_of_waiting ran waiting still
    | true =>
      refine not_unclaimed_of_settles settles (fun id same ↦ ?_) unclaimed
      subst same
      have active := ((unclaimed_ret_iff ran).mp unclaimed).1
      rw [waiting] at active
      contradiction
  · intro pending
    have nothing : step.machine.pendingReturn = false := by
      cases asked : event.asked? with
      | none => exact (untouched.step waiting asked stepped).settled
      | some ty =>
        cases event with
        | newInput type address =>
          obtain ⟨-, entry, memory, -, -, result⟩ := newInput_inv stepped
          rw [result]
          exact untouched.settled
        | _ => cases asked
    rw [nothing] at pending
    contradiction

/-- At every point of a run the flag and the stack tell of the unclaimed result. -/
theorem accounts_run (ran : (start policy inputs).run events = .ok machine) :
    machine.Accounts (Unclaimed policy inputs events) := by
  refine run_induction ran ?_ fun seen middle event step ranSeen ih stepped ↦ ?_
  · exact ⟨fun _ _ ↦ not_unclaimed_nil, fun pending ↦ Bool.noConfusion pending⟩
  cases waiting : middle.awaitingInput with
  | true => exact accounts_waiting ranSeen waiting stepped
  | false =>
    cases settles : event.settles with
    | false =>
      exact ih.quiet settles (retains_step (fitsType_run ranSeen).memory waiting settles stepped)
    | true =>
      by_cases returns : ∃ id, event = .ret id
      · obtain ⟨id, rfl⟩ := returns
        exact accounts_ret ranSeen waiting stepped
      · have noReturn : ∀ id, event ≠ .ret id := fun id same ↦ returns ⟨id, same⟩
        have nothing := pendingReturn_of_settles waiting settles noReturn stepped
        refine ⟨fun _ _ ↦ not_unclaimed_of_settles settles noReturn, fun pending ↦ ?_⟩
        rw [nothing] at pending
        contradiction

/-- After the first input, taking a result leaves exactly one operand, and its recorded value is
the reported one at the type of the result exactly where no result of another value is unclaimed. -/
theorem takeResult_agrees_iff {id : InstructionId} {ty : CType} {value : Value}
    (ran : (start policy inputs).run events = .ok machine)
    (active : machine.awaitingInput = false)
    (stepped : machine.step (.takeResult id ty value) = .ok step) :
    ∃ operand, step.machine.stack = [operand] ∧
      (ty.normalize operand.value = ty.normalize value ↔
        ∀ result, Unclaimed policy inputs events result →
          ty.normalize result = ty.normalize value) := by
  have accounts := accounts_run ran
  rcases (takeResult_inv stepped).resolve_left (fun waiting ↦ by simp [active] at waiting) with
    ⟨-, ⟨some, single, result⟩ | ⟨nothing, result⟩⟩
  · rcases accounts.pending some with empty | ⟨operand, stack, only⟩
    · simp [empty] at single
    · rw [result]
      exact ⟨operand, stack, by simp only [only, forall_eq]⟩
  · rw [result]
    exact ⟨_, rfl, iff_of_true (ty.normalize_normalize value) fun result unclaimed ↦
      absurd unclaimed (accounts.settled nothing result)⟩

/-- A call that returns an input, not yet followed by anything. -/
def returningEvents : List Event :=
  [.newInput .int 4096, .call 1 7, .load 2 4096 .int 4, .ret 3]

theorem takeResult_agrees_iff_returning :
    ∃ machine step operand, (start .forget [4]).run returningEvents = .ok machine ∧
      machine.awaitingInput = false ∧ machine.step (.takeResult 4 .int 4) = .ok step ∧
      step.machine.stack = [operand] ∧
      CType.normalize .int operand.value = CType.normalize .int 4 := by
  obtain ⟨machine, step, ran, active, stepped, pending⟩ : ∃ machine step,
      (start .forget [4]).run returningEvents = .ok machine ∧ machine.awaitingInput = false ∧
        machine.step (.takeResult 4 .int 4) = .ok step ∧
        machine.pendingReturn = true ∧ machine.stack = [.symbolic (.mkInput 0 .int 4)] :=
    ⟨_, _, rfl, rfl, rfl, rfl, rfl⟩
  obtain ⟨operand, stack, agrees⟩ := takeResult_agrees_iff ran active stepped
  refine ⟨machine, step, operand, ran, active, stepped, stack, agrees.mpr fun result claim ↦ ?_⟩
  rcases (accounts_run ran).pending pending.1 with none | ⟨returned, single, only⟩
  · simp [pending.2] at none
  · rw [pending.2, List.singleton_inj] at single
    rw [(only result).mp claim, ← single]
    rfl

/-- The caller ignores the result, and asks for that of a function that is not instrumented: it
gets the one it ignored. -/
theorem not_takeResult_agrees :
    ¬∀ (policy : PointerPolicy) (inputs : List Value) (events : List Event) (machine : Machine)
      (step : Step) (id : InstructionId) (ty : CType) (value : Value),
      (start policy inputs).run events = .ok machine → machine.awaitingInput = false →
      ty ≠ .struct → machine.step (.takeResult id ty value) = .ok step →
      ∃ operand, step.machine.stack = [operand] ∧
        ty.normalize operand.value = ty.normalize value := by
  intro claim
  obtain ⟨operand, stack, same⟩ := claim .forget [4] returningEvents _ _ 4 .int 11 rfl rfl
    (by decide) rfl
  cases stack
  exact absurd same (by decide)

end Machine

end Concolic
