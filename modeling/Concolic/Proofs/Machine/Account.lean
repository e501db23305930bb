import Concolic.Proofs.Machine.Journal

/-!
# What one step tells

Each step accounts for its event: an access to memory after the first input is told with the operand
that it moves and, if the pointer depends on inputs, as a loss; new inputs, branches, calls and
returns are told at any time and nothing else is.  What the machine records of these grows with the
notices.
-/

namespace Concolic

namespace Notice

/-- The branch that is entered on the path with the notice. -/
def entry? : Notice → Option BranchId
  | .branch _ site _ _ => some site
  | .call .. => some Machine.callBranch
  | .ret .. => some Machine.returnBranch
  | _ => none

def constraint? : Notice → Option Constraint
  | .branch _ _ _ constraint => constraint
  | _ => none

def declared? : Notice → Option (InputId × CType)
  | .newInput id ty _ _ => some (id, ty)
  | _ => none

def answer? : Notice → Option Value
  | .newInput _ _ _ value => some value
  | _ => none

def isRead : Notice → Bool
  | .memoryRead .. => true
  | _ => false

def isWrite : Notice → Bool
  | .memoryWrite .. => true
  | _ => false

def isLoss : Notice → Bool
  | .loss .. => true
  | _ => false

/-- Branches, calls and returns. -/
def isControl : Notice → Bool
  | .branch .. | .call .. | .ret .. => true
  | _ => false

end Notice

namespace Event

/-- A load, through a pointer or not, with its address. -/
def loads? : Event → Option (InstructionId × Address)
  | .load id address _ _ | .deref id address _ _ => some (id, address)
  | _ => none

/-- A store, through a pointer or not, with its address. -/
def stores? : Event → Option (InstructionId × Address)
  | .store id address | .write id address => some (id, address)
  | _ => none

/-- The pointer that an access goes through, if it depends on inputs.  For a load it lies on top of
the stack, for a store below the operand that is stored. -/
def pointer? : Event → List Operand → Option Expr
  | .deref .., .symbolic e :: _ => some e
  | .write .., _ :: .symbolic e :: _ => some e
  | _, _ => none

variable {event : Event} {id : InstructionId} {address : Address}

theorem isWritten_of_loads (loads : event.loads? = some (id, address)) :
    event.isWritten = false := by
  cases event <;> first | rfl | cases loads

theorem isWritten_of_stores (stores : event.stores? = some (id, address)) :
    event.isWritten = false := by
  cases event <;> first | rfl | cases stores

theorem stores?_of_loads (loads : event.loads? = some (id, address)) : event.stores? = none := by
  cases event <;> first | rfl | cases loads

theorem loads?_of_stores (stores : event.stores? = some (id, address)) : event.loads? = none := by
  cases event <;> first | rfl | cases stores

theorem entry?_of_quiet (quiet : event.isWritten = false) : event.entry? = none := by
  cases event <;> first | rfl | cases quiet

theorem asked?_of_quiet (quiet : event.isWritten = false) : event.asked? = none := by
  cases event <;> first | rfl | cases quiet

end Event

namespace Machine

variable {machine : Machine} {next : Step} {event : Event} {id : InstructionId} {address : Address}
  {ty : CType} {value : Value}

/-! ## One step -/

/-- What a step tells of its event, and what it counts and answers. -/
inductive Account (machine : Machine) (next : Step) : Event → Prop where
  | newInput {ty : CType} {address : Address} {value : Value}
      (told : next.notices = [.newInput (.ofNat 32 machine.inputCount) ty address value])
      (result : next.result = some value) (losses : next.machine.losses = machine.losses) :
      Account machine next (.newInput ty address)
  | read {event : Event} {id : InstructionId} {address : Address} {operand : Operand}
      {rest : List Operand} {lost : Option Expr} (active : machine.awaitingInput = false)
      (loads : event.loads? = some (id, address))
      (pointer : event.pointer? machine.stack = lost)
      (after : next.machine.stack = operand :: rest)
      (told : next.notices =
        (lost.map (.loss id · address)).toList ++ [.memoryRead id address operand])
      (result : next.result = none)
      (losses : next.machine.losses = machine.losses + lost.toList.length) :
      Account machine next event
  | write {event : Event} {id : InstructionId} {address : Address} {operand : Operand}
      {rest : List Operand} {lost : Option Expr} (active : machine.awaitingInput = false)
      (stores : event.stores? = some (id, address))
      (pointer : event.pointer? machine.stack = lost)
      (stack : machine.stack = operand :: rest)
      (told : next.notices =
        .memoryWrite id address operand :: (lost.map (.loss id · address)).toList)
      (result : next.result = none)
      (losses : next.machine.losses = machine.losses + lost.toList.length) :
      Account machine next event
  | branch {id : InstructionId} {site : BranchId} {taken : Bool} {constraint : Option Constraint}
      (told : next.notices = [.branch id site taken constraint])
      (constraints : next.machine.record.path.constraints =
        machine.record.path.constraints ++ constraint.toList)
      (result : next.result = none) (losses : next.machine.losses = machine.losses) :
      Account machine next (.branch id site taken)
  | call {id : InstructionId} {function : FunctionId}
      (told : next.notices = [.call id function]) (result : next.result = none)
      (losses : next.machine.losses = machine.losses) :
      Account machine next (.call id function)
  | ret {id : InstructionId} {function : FunctionId}
      (told : next.notices = [.ret id function]) (result : next.result = none)
      (losses : next.machine.losses = machine.losses) :
      Account machine next (.ret id)
  | silent {event : Event} (quiet : event.isWritten = false)
      (idle : machine.awaitingInput = true ∨ event.loads? = none ∧ event.stores? = none)
      (told : next.notices = []) (result : next.result = none)
      (losses : next.machine.losses = machine.losses) : Account machine next event

/-- Before the first input most steps tell nothing. -/
theorem silent_or_active {active : Except Fault Step} (quiet : event.isWritten = false)
    (ran : (if machine.awaitingInput then .ok { machine } else active) = .ok next) :
    Account machine next event ∨ machine.awaitingInput = false ∧ active = .ok next := by
  cases waiting : machine.awaitingInput with
  | true =>
    rw [waiting, if_pos rfl] at ran
    cases ran
    exact .inl (.silent quiet (.inl waiting) rfl rfl rfl)
  | false =>
    rw [waiting, if_neg Bool.false_ne_true] at ran
    exact .inr ⟨rfl, ran⟩

theorem account_newInput (ran : machine.newInput ty address = .ok next) :
    Account machine next (.newInput ty address) := by
  unfold newInput at ran
  split at ran
  · contradiction
  simp only at ran
  split at ran
  · contradiction
  obtain ⟨memory, -, ran⟩ := bind_eq_ok.mp ran
  rw [pure_eq_ok] at ran
  subst ran
  exact .newInput rfl rfl rfl

theorem account_load (ran : machine.load id address ty value = .ok next) :
    Account machine next (.load id address ty value) := by
  unfold load at ran
  rcases silent_or_active (show Event.isWritten (.load id address ty value) = false from rfl) ran
    with silent | ⟨active, ran⟩
  · exact silent
  obtain ⟨reading, -, ran⟩ := bind_eq_ok.mp ran
  rw [pure_eq_ok] at ran
  subst ran
  refine .read active rfl rfl rfl rfl rfl ?_
  dsimp only
  split <;> rfl

theorem account_deref (ran : machine.deref id address ty value = .ok next) :
    Account machine next (.deref id address ty value) := by
  unfold deref at ran
  rcases silent_or_active (show Event.isWritten (.deref id address ty value) = false from rfl) ran
    with silent | ⟨active, ran⟩
  · exact silent
  obtain ⟨⟨pointer, popped⟩, pops, ran⟩ := bind_eq_ok.mp ran
  obtain ⟨rest, stack, rfl⟩ := pop_eq_ok.mp pops
  have lost := congrArg (Event.pointer? (.deref id address ty value)) stack
  simp only at ran
  -- the two ways to read differ in the operand alone
  split at ran <;> obtain ⟨reading, -, ran⟩ := bind_eq_ok.mp ran <;> rw [pure_eq_ok] at ran <;>
    subst ran <;> cases pointer <;> exact .read active rfl lost rfl rfl rfl rfl

theorem account_store (ran : machine.store id address = .ok next) :
    Account machine next (.store id address) := by
  unfold store at ran
  rcases silent_or_active (show Event.isWritten (.store id address) = false from rfl) ran
    with silent | ⟨active, ran⟩
  · exact silent
  obtain ⟨⟨operand, popped⟩, pops, ran⟩ := bind_eq_ok.mp ran
  obtain ⟨rest, stack, rfl⟩ := pop_eq_ok.mp pops
  obtain ⟨memory, -, ran⟩ := bind_eq_ok.mp ran
  rw [pure_eq_ok] at ran
  subst ran
  exact .write active rfl rfl stack rfl rfl rfl

theorem account_write (ran : machine.write id address = .ok next) :
    Account machine next (.write id address) := by
  unfold write at ran
  rcases silent_or_active (show Event.isWritten (.write id address) = false from rfl) ran
    with silent | ⟨active, ran⟩
  · exact silent
  obtain ⟨⟨operand, below⟩, pops, ran⟩ := bind_eq_ok.mp ran
  obtain ⟨⟨pointer, popped⟩, popsAgain, ran⟩ := bind_eq_ok.mp ran
  obtain ⟨rest, stack, rfl⟩ := pop_twice pops popsAgain
  have lost := congrArg (Event.pointer? (.write id address)) stack
  obtain ⟨memory, -, ran⟩ := bind_eq_ok.mp ran
  rw [pure_eq_ok] at ran
  subst ran
  cases pointer <;> exact .write active rfl lost stack rfl rfl rfl

theorem account_branch {site : BranchId} {taken : Bool}
    (ran : machine.branch id site taken = .ok next) :
    Account machine next (.branch id site taken) := by
  have plain (stack : List Operand) {reason : String}
      (result : plainBranch { machine with stack } id site taken reason = next) :
      Account machine next (.branch id site taken) := by
    subst result
    exact .branch rfl (List.append_nil _).symm rfl rfl
  unfold Machine.branch at ran
  split at ran
  · exact plain machine.stack (Except.ok.inj ran)
  · split at ran
    · exact plain [] (Except.ok.inj ran)
    · cases ran
      refine .branch rfl ?_ rfl rfl
      simp [symbolicBranch, withPath, Path.pushConstraint]
    · contradiction

theorem account_ret (ran : machine.ret id = .ok next) : Account machine next (.ret id) := by
  unfold ret at ran
  split at ran
  · contradiction
  · simp only at ran
    split at ran
    · cases ran
      exact .ret rfl rfl rfl
    · split at ran
      · cases ran
        exact .ret rfl rfl rfl
      · contradiction

theorem account_silent (quiet : event.isWritten = false)
    (other : event.loads? = none ∧ event.stores? = none) (ran : machine.step event = .ok next) :
    Account machine next event := by
  have silent (told : next.notices = []) (result : next.result = none)
      (losses : next.machine.losses = machine.losses) : Account machine next event :=
    .silent quiet (.inr other) told result losses
  cases event with
  | newInput | branch | call | ret => cases quiet
  | load | deref => cases other.1
  | store | write => cases other.2
  | alloc id address size =>
    obtain ⟨memory, -, ran⟩ := bind_eq_ok.mp ran
    rw [pure_eq_ok] at ran
    subst ran
    exact silent rfl rfl rfl
  | dropOperands id =>
    rcases silent_or_active quiet ran with idle | ⟨-, ran⟩
    · exact idle
    cases ran
    exact silent rfl rfl rfl
  | unary id op ty value =>
    rcases silent_or_active quiet ran with idle | ⟨-, ran⟩
    · exact idle
    obtain ⟨⟨operand, popped⟩, pops, ran⟩ := bind_eq_ok.mp ran
    obtain ⟨rest, -, rfl⟩ := pop_eq_ok.mp pops
    rw [pure_eq_ok] at ran
    subst ran
    exact silent rfl rfl rfl
  | binary | compare | pointer | untracked =>
    rcases silent_or_active quiet ran with idle | ⟨-, ran⟩
    · exact idle
    obtain ⟨⟨rhs, below⟩, pops, ran⟩ := bind_eq_ok.mp ran
    obtain ⟨⟨lhs, popped⟩, popsAgain, ran⟩ := bind_eq_ok.mp ran
    obtain ⟨rest, -, rfl⟩ := pop_twice pops popsAgain
    rw [pure_eq_ok] at ran
    subst ran
    exact silent rfl rfl rfl
  | takeResult id ty value =>
    rcases silent_or_active quiet ran with idle | ⟨-, ran⟩
    · exact idle
    split at ran
    · split at ran
      · cases ran
        exact silent rfl rfl rfl
      · contradiction
    · cases ran
      exact silent rfl rfl rfl

theorem account_step (ran : machine.step event = .ok next) : Account machine next event := by
  cases event with
  | newInput => exact account_newInput ran
  | load => exact account_load ran
  | deref => exact account_deref ran
  | store => exact account_store ran
  | write => exact account_write ran
  | branch => exact account_branch ran
  | call =>
    cases ran
    exact .call rfl rfl rfl
  | ret => exact account_ret ran
  | _ => exact account_silent rfl ⟨rfl, rfl⟩ ran

namespace Account

theorem entries_told (account : Account machine next event) :
    next.notices.filterMap Notice.entry? = event.entry?.toList := by
  cases account with
  | silent quiet _ told =>
    rw [told, Event.entry?_of_quiet quiet]
    rfl
  | @read _ _ _ _ _ lost _ loads _ _ told =>
    rw [told, Event.entry?_of_quiet (Event.isWritten_of_loads loads)]
    cases lost <;> rfl
  | @write _ _ _ _ _ lost _ stores _ _ told =>
    rw [told, Event.entry?_of_quiet (Event.isWritten_of_stores stores)]
    cases lost <;> rfl
  | newInput told | branch told | call told | ret told =>
    rw [told]
    rfl

theorem declared_told (account : Account machine next event) :
    next.notices.filterMap Notice.declared? =
      (event.asked?.map (.ofNat 32 machine.inputCount, ·)).toList := by
  cases account with
  | silent quiet _ told =>
    rw [told, Event.asked?_of_quiet quiet]
    rfl
  | @read _ _ _ _ _ lost _ loads _ _ told =>
    rw [told, Event.asked?_of_quiet (Event.isWritten_of_loads loads)]
    cases lost <;> rfl
  | @write _ _ _ _ _ lost _ stores _ _ told =>
    rw [told, Event.asked?_of_quiet (Event.isWritten_of_stores stores)]
    cases lost <;> rfl
  | newInput told | branch told | call told | ret told =>
    rw [told]
    rfl

theorem answers_told (account : Account machine next event) :
    next.notices.filterMap Notice.answer? = next.result.toList := by
  cases account with
  | @read _ _ _ _ _ lost _ _ _ _ told result =>
    rw [told, result]
    cases lost <;> rfl
  | @write _ _ _ _ _ lost _ _ _ _ told result =>
    rw [told, result]
    cases lost <;> rfl
  | silent _ _ told result | newInput told result | branch told _ result | call told result
  | ret told result =>
    rw [told, result]
    rfl

theorem losses_told (account : Account machine next event) :
    next.machine.losses = machine.losses + (next.notices.filter Notice.isLoss).length := by
  cases account with
  | @read _ _ _ _ _ lost _ _ _ _ told _ losses =>
    rw [told, losses]
    cases lost <;> rfl
  | @write _ _ _ _ _ lost _ _ _ _ told _ losses =>
    rw [told, losses]
    cases lost <;> rfl
  | silent _ _ told _ losses | newInput told _ losses | branch told _ _ losses
  | call told _ losses | ret told _ losses =>
    rw [told, losses]
    rfl

theorem constraints_told (account : Account machine next event)
    (ran : machine.step event = .ok next) :
    next.machine.record.path.constraints =
      machine.record.path.constraints ++ next.notices.filterMap Notice.constraint? := by
  have unchanged (quiet : event.entry? = none)
      (none : next.notices.filterMap Notice.constraint? = []) :
      next.machine.record.path.constraints =
        machine.record.path.constraints ++ next.notices.filterMap Notice.constraint? := by
    rw [none, path_step quiet ran, List.append_nil]
  cases account with
  | @branch _ _ _ constraint told constraints =>
    rw [told, constraints]
    cases constraint <;> rfl
  | call told =>
    rw [told, call_inv ran]
    exact (List.append_nil _).symm
  | ret told =>
    obtain ⟨scope, scopes, pending, -, -, result⟩ := ret_inv ran
    rw [told, result]
    exact (List.append_nil _).symm
  | silent quiet _ told => exact unchanged (Event.entry?_of_quiet quiet) (by rw [told]; rfl)
  | @read _ _ _ _ _ lost _ loads _ _ told =>
    exact unchanged (Event.entry?_of_quiet (Event.isWritten_of_loads loads))
      (by rw [told]; cases lost <;> rfl)
  | @write _ _ _ _ _ lost _ stores _ _ told =>
    exact unchanged (Event.entry?_of_quiet (Event.isWritten_of_stores stores))
      (by rw [told]; cases lost <;> rfl)
  | newInput told => exact unchanged rfl (by rw [told]; rfl)

end Account

theorem vars_told (ran : machine.step event = .ok next) :
    next.machine.record.vars = (next.notices.filterMap Notice.declared?).foldl
      (fun vars entry ↦ vars.insert entry.1 entry.2) machine.record.vars := by
  rw [(account_step ran).declared_told]
  cases asked : event.asked? with
  | none => exact (asked_step asked ran).1
  | some ty =>
    cases event with
    | newInput type address =>
      obtain ⟨-, entry, memory, -, -, result⟩ := newInput_inv ran
      cases asked
      rw [result]
      rfl
    | _ => cases asked

end Machine

end Concolic
