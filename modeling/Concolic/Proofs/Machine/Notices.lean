import Concolic.Proofs.Codec.Record
import Concolic.Proofs.Machine.Account
import Concolic.Proofs.Machine.Numbers

/-!
# What an observer can tell

The notices of a run are told with its events, and what the machine records besides them can be
told from them: the path, the types of the inputs and the number of accesses through pointers that
depend on inputs.  Each access to memory is told once, with the operand that it reads or writes.
-/

namespace Concolic

namespace Visit

def outcome? (visit : Visit) : Option Step :=
  (visit.machine.step visit.event).toOption

def told (visit : Visit) : List Notice :=
  visit.outcome?.elim [] Step.notices

/-- The value that the program is given for a new input. -/
def answer? (visit : Visit) : Option Value :=
  visit.outcome?.bind Step.result

/-- The operand that lies on top afterwards. -/
def pushed? (visit : Visit) : Option Operand :=
  visit.outcome?.bind fun step ↦ step.machine.stack.head?

/-- The notice of a load after the first input, with the operand that it pushes. -/
def read? (visit : Visit) : Option Notice :=
  if visit.machine.awaitingInput then none
  else visit.event.loads?.bind fun (id, address) ↦ visit.pushed?.map (.memoryRead id address)

/-- The notice of a store after the first input, with the operand that it pops. -/
def write? (visit : Visit) : Option Notice :=
  if visit.machine.awaitingInput then none
  else visit.event.stores?.bind fun (id, address) ↦
    visit.machine.stack.head?.map (.memoryWrite id address)

/-- The notice of an access through a pointer that depends on inputs. -/
def loss? (visit : Visit) : Option Notice :=
  if visit.machine.awaitingInput then none
  else (visit.event.loads? <|> visit.event.stores?).bind fun (id, address) ↦
    (visit.event.pointer? visit.machine.stack).map (.loss id · address)

theorem outcome?_eq {visit : Visit} {next : Step}
    (stepped : visit.machine.step visit.event = .ok next) : visit.outcome? = some next := by
  rw [outcome?, stepped]
  rfl

end Visit

namespace Machine.Account

variable {machine : Machine} {next : Step} {event : Event}

theorem reads_told (before : List Event) (account : Account machine next event)
    (stepped : machine.step event = .ok next) :
    next.notices.filter Notice.isRead = (Visit.mk before machine event).read?.toList := by
  have outcome : (Visit.mk before machine event).outcome? = some next := Visit.outcome?_eq stepped
  cases account with
  | @read _ _ _ _ _ lost active loads _ after told =>
    have top : (Visit.mk before machine event).pushed? = next.machine.stack.head? := by
      rw [Visit.pushed?, outcome]
      rfl
    simp only [Visit.read?, active, loads, top, after, told]
    cases lost <;> rfl
  | @write _ _ _ _ _ lost active stores _ _ told =>
    simp only [Visit.read?, active, Event.loads?_of_stores stores, told]
    cases lost <;> rfl
  | silent _ idle told =>
    rcases idle with waiting | ⟨none, -⟩
    · simp only [Visit.read?, waiting, told]
      rfl
    · simp only [Visit.read?, none, told]
      cases machine.awaitingInput <;> rfl
  | newInput told | branch told | call told | ret told =>
    simp only [Visit.read?, told]
    cases machine.awaitingInput <;> rfl

theorem writes_told (before : List Event) (account : Account machine next event) :
    next.notices.filter Notice.isWrite = (Visit.mk before machine event).write?.toList := by
  cases account with
  | @read _ _ _ _ _ lost active loads _ _ told =>
    simp only [Visit.write?, active, Event.stores?_of_loads loads, told]
    cases lost <;> rfl
  | @write _ _ _ _ _ lost active stores _ stack told =>
    simp only [Visit.write?, active, stores, stack, told]
    cases lost <;> rfl
  | silent _ idle told =>
    rcases idle with waiting | ⟨-, none⟩
    · simp only [Visit.write?, waiting, told]
      rfl
    · simp only [Visit.write?, none, told]
      cases machine.awaitingInput <;> rfl
  | newInput told | branch told | call told | ret told =>
    simp only [Visit.write?, told]
    cases machine.awaitingInput <;> rfl

theorem lost_told (before : List Event) (account : Account machine next event) :
    next.notices.filter Notice.isLoss = (Visit.mk before machine event).loss?.toList := by
  cases account with
  | @read _ _ _ _ _ lost active loads pointer _ told =>
    simp only [Visit.loss?, active, loads, pointer, told]
    cases lost <;> rfl
  | @write _ _ _ _ _ lost active stores pointer _ told =>
    simp only [Visit.loss?, active, Event.loads?_of_stores stores, stores, pointer, told]
    cases lost <;> rfl
  | silent _ idle told =>
    rcases idle with waiting | ⟨noLoad, noStore⟩
    · simp only [Visit.loss?, waiting, told]
      rfl
    · simp only [Visit.loss?, noLoad, noStore, told]
      cases machine.awaitingInput <;> rfl
  | newInput told | branch told | call told | ret told =>
    simp only [Visit.loss?, told]
    cases machine.awaitingInput <;> rfl

/-- Before the first input only control is told. -/
theorem early_told (account : Account machine next event) (waiting : machine.awaitingInput = true)
    (quiet : event.asked? = none) : ∀ notice ∈ next.notices, notice.isControl = true := by
  cases account with
  | newInput => cases quiet
  | read active => rw [waiting] at active; cases active
  | write active => rw [waiting] at active; cases active
  | silent _ _ told =>
    rw [told]
    exact List.forall_mem_nil _
  | branch told | call told | ret told =>
    rw [told]
    exact List.forall_mem_singleton.mpr rfl

/-- A load after the first input is told once, with the operand that it pushes. -/
theorem read_told (account : Account machine next event) (active : machine.awaitingInput = false)
    {id : InstructionId} {address : Address} (loads : event.loads? = some (id, address)) :
    ∃ operand, next.machine.stack.head? = some operand ∧
      next.notices.filter Notice.isRead = [.memoryRead id address operand] := by
  cases account with
  | @read _ _ _ operand _ lost _ here _ after told =>
    cases here.symm.trans loads
    refine ⟨operand, by rw [after]; rfl, ?_⟩
    rw [told]
    cases lost <;> rfl
  | write _ stores =>
    rw [Event.loads?_of_stores stores] at loads
    cases loads
  | silent _ idle =>
    rcases idle with waiting | ⟨none, -⟩
    · rw [active] at waiting
      cases waiting
    · rw [none] at loads
      cases loads
  | newInput | branch | call | ret => cases loads

/-- A store after the first input is told once, with the operand that it pops. -/
theorem write_told (account : Account machine next event) (active : machine.awaitingInput = false)
    {id : InstructionId} {address : Address} (stores : event.stores? = some (id, address)) :
    ∃ operand, machine.stack.head? = some operand ∧
      next.notices.filter Notice.isWrite = [.memoryWrite id address operand] := by
  cases account with
  | read _ loads =>
    rw [Event.stores?_of_loads loads] at stores
    cases stores
  | @write _ _ _ operand _ lost _ here _ stack told =>
    cases here.symm.trans stores
    refine ⟨operand, by rw [stack]; rfl, ?_⟩
    rw [told]
    cases lost <;> rfl
  | silent _ idle =>
    rcases idle with waiting | ⟨-, none⟩
    · rw [active] at waiting
      cases waiting
    · rw [none] at stores
      cases stores
  | newInput | branch | call | ret => cases stores

end Machine.Account

namespace Machine

/-! ## Runs -/

/-- What an observer is told in a run, in order. -/
def told (machine : Machine) (events : List Event) : List Notice :=
  (machine.visits events).flatMap Visit.told

theorem flatMap_eq_filterMap {α β : Type} {items : List α} {all : α → List β} {one : α → Option β}
    (same : ∀ item ∈ items, all item = (one item).toList) :
    items.flatMap all = items.filterMap one := by
  induction items with
  | nil => rfl
  | cons item items ih =>
    obtain ⟨here, others⟩ := List.forall_mem_cons.mp same
    rw [List.flatMap_cons, here, ih others, List.filterMap_cons]
    cases one item <;> rfl

variable {machine middle final : Machine} {next : Step} {events : List Event} {event : Event}
  {visit : Visit}

theorem told_of_stepped (stepped : visit.machine.step visit.event = .ok next) :
    visit.told = next.notices := by
  rw [Visit.told, Visit.outcome?_eq stepped]
  rfl

theorem told_concat (ran : machine.run events = .ok middle)
    (stepped : middle.step event = .ok next) :
    machine.told (events ++ [event]) = machine.told events ++ next.notices := by
  rw [told, visits_concat ran, List.flatMap_append, List.flatMap_singleton, told_of_stepped stepped,
    told]

theorem stepped_of_mem_visits (ran : machine.run events = .ok final)
    (member : visit ∈ machine.visits events) :
    ∃ next, visit.machine.step visit.event = .ok next := by
  obtain ⟨ranBefore, after, split⟩ := mem_visits ran member
  rw [split] at ran
  obtain ⟨middle, ranMiddle, later⟩ := run_append_eq_ok.mp ran
  obtain rfl := Except.ok.inj (ranBefore.symm.trans ranMiddle)
  obtain ⟨next, stepped, -⟩ := run_cons_eq_ok.mp later
  exact ⟨next, stepped⟩

/-- Numbers of 32 bits ascend as long as none is given twice. -/
theorem ascending_zipIdx_iff {types : List CType} :
    Ascending (types.zipIdx.map fun entry ↦ (BitVec.ofNat 32 entry.2, entry.1)) ↔
      types.length ≤ 2 ^ 32 := by
  rw [Ascending, List.pairwise_map, List.pairwise_iff_getElem]
  simp only [List.length_zipIdx, List.getElem_zipIdx, Nat.zero_add, BitVec.lt_def,
    BitVec.toNat_ofNat]
  constructor
  · intro ascending
    refine Nat.le_of_not_lt fun many ↦ ?_
    have wrapped := ascending 0 (2 ^ 32) (by omega) many (by decide)
    exact absurd wrapped (by decide)
  · intro narrow i j inside insideToo below
    rwa [Nat.mod_eq_of_lt (by omega), Nat.mod_eq_of_lt (by omega)]

section Start

variable {policy : PointerPolicy} {inputs : List Value}
  (ran : (start policy inputs).run events = .ok final)

include ran

theorem awaitingInput_visit (member : visit ∈ (start policy inputs).visits events) :
    visit.machine.awaitingInput = (askedTypes visit.before).isEmpty :=
  awaitingInput_run rfl (mem_visits ran member).1

theorem entries_run :
    ((start policy inputs).told events).filterMap Notice.entry? = final.record.path.branches := by
  rw [branches_run ran]
  refine run_induction ran rfl fun seen middle event step ranSeen ih stepped ↦ ?_
  rw [told_concat ranSeen stepped, List.filterMap_append, ih, (account_step stepped).entries_told,
    entries_append, entries_singleton]

theorem constraints_told_run :
    ((start policy inputs).told events).filterMap Notice.constraint? =
      final.record.path.constraints := by
  refine run_induction ran rfl fun seen middle event step ranSeen ih stepped ↦ ?_
  rw [told_concat ranSeen stepped, List.filterMap_append, ih,
    (account_step stepped).constraints_told stepped]

theorem losses_told_run :
    (((start policy inputs).told events).filter Notice.isLoss).length = final.losses := by
  refine run_induction ran rfl fun seen middle event step ranSeen ih stepped ↦ ?_
  rw [told_concat ranSeen stepped, List.filter_append, List.length_append, ih,
    (account_step stepped).losses_told]

/-- The inputs are told in order, numbered as they come, with the types asked for. -/
theorem declared_run :
    ((start policy inputs).told events).filterMap Notice.declared? =
      (askedTypes events).zipIdx.map fun entry ↦ (.ofNat 32 entry.2, entry.1) := by
  refine run_induction ran rfl fun seen middle event step ranSeen ih stepped ↦ ?_
  have count : middle.inputCount = (askedTypes seen).length :=
    (inputCount_run ranSeen).trans (Nat.zero_add _)
  rw [told_concat ranSeen stepped, List.filterMap_append, ih, (account_step stepped).declared_told,
    count, askedTypes_concat, List.zipIdx_append, List.map_append, Nat.zero_add]
  cases event.asked? <;> rfl

theorem vars_run :
    final.record.vars =
      .ofList (((start policy inputs).told events).filterMap Notice.declared?) := by
  refine run_induction ran rfl fun seen middle event step ranSeen ih stepped ↦ ?_
  rw [told_concat ranSeen stepped, List.filterMap_append, vars_told stepped, ih, WordMap.ofList,
    WordMap.ofList, List.foldl_append]

/-- The types of inputs are listed as they were told, as long as the numbers tell the inputs apart
and no longer. -/
theorem entries_vars_run_iff :
    final.record.vars.entries =
        ((start policy inputs).told events).filterMap Notice.declared? ↔
      (askedTypes events).length ≤ 2 ^ 32 := by
  constructor
  · intro listed
    have ascending := final.record.vars.ascending
    rw [listed, declared_run ran] at ascending
    exact ascending_zipIdx_iff.mp ascending
  · intro narrow
    have ascending := ascending_zipIdx_iff.mpr narrow
    rw [← declared_run ran] at ascending
    rw [vars_run ran]
    exact congrArg WordMap.entries (WordMap.ofList_entries ⟨_, ascending⟩)

theorem answers_run :
    ((start policy inputs).told events).filterMap Notice.answer? =
      ((start policy inputs).visits events).filterMap Visit.answer? := by
  rw [told, List.filterMap_flatMap]
  refine flatMap_eq_filterMap fun visit member ↦ ?_
  obtain ⟨next, stepped⟩ := stepped_of_mem_visits ran member
  rw [told_of_stepped stepped, (account_step stepped).answers_told, Visit.answer?,
    Visit.outcome?_eq stepped]
  rfl

/-- Notices of a kind that each visit tells at most once are told by the visits in order. -/
theorem filter_told_run {kind : Notice → Bool} {one : Visit → Option Notice}
    (each : ∀ visit next, visit.machine.step visit.event = .ok next →
      next.notices.filter kind = (one visit).toList) :
    ((start policy inputs).told events).filter kind =
      ((start policy inputs).visits events).filterMap one := by
  rw [told, List.filter_flatMap]
  refine flatMap_eq_filterMap fun visit member ↦ ?_
  obtain ⟨next, stepped⟩ := stepped_of_mem_visits ran member
  rw [told_of_stepped stepped]
  exact each visit next stepped

theorem read_run (member : visit ∈ (start policy inputs).visits events)
    (asked : askedTypes visit.before ≠ []) {id : InstructionId} {address : Address}
    (loads : visit.event.loads? = some (id, address)) :
    ∃ operand, visit.pushed? = some operand ∧
      visit.told.filter Notice.isRead = [.memoryRead id address operand] := by
  obtain ⟨next, stepped⟩ := stepped_of_mem_visits ran member
  have active : visit.machine.awaitingInput = false := by
    simpa [awaitingInput_visit ran member] using asked
  rw [Visit.pushed?, Visit.outcome?_eq stepped, told_of_stepped stepped]
  exact (account_step stepped).read_told active loads

theorem write_run (member : visit ∈ (start policy inputs).visits events)
    (asked : askedTypes visit.before ≠ []) {id : InstructionId} {address : Address}
    (stores : visit.event.stores? = some (id, address)) :
    ∃ operand, visit.machine.stack.head? = some operand ∧
      visit.told.filter Notice.isWrite = [.memoryWrite id address operand] := by
  obtain ⟨next, stepped⟩ := stepped_of_mem_visits ran member
  have active : visit.machine.awaitingInput = false := by
    simpa [awaitingInput_visit ran member] using asked
  rw [told_of_stepped stepped]
  exact (account_step stepped).write_told active stores

theorem early_run (member : visit ∈ (start policy inputs).visits events)
    (early : askedTypes visit.before = []) (quiet : visit.event.asked? = none) :
    ∀ notice ∈ visit.told, notice.isControl = true := by
  obtain ⟨next, stepped⟩ := stepped_of_mem_visits ran member
  have waiting : visit.machine.awaitingInput = true := by
    rw [awaitingInput_visit ran member, early]
    rfl
  rw [told_of_stepped stepped]
  exact (account_step stepped).early_told waiting quiet

end Start

/-- What an observer from the first event on can tell of a run. -/
structure Observed (first : Machine) (events : List Event) (final : Machine) : Prop where
  visited : (first.visits events).map Visit.event = events
  waiting : ∀ visit ∈ first.visits events,
    visit.machine.awaitingInput = (askedTypes visit.before).isEmpty
  branches : (first.told events).filterMap Notice.entry? = final.record.path.branches
  constraints : (first.told events).filterMap Notice.constraint? = final.record.path.constraints
  numbered : (first.told events).filterMap Notice.declared? =
    (askedTypes events).zipIdx.map fun entry ↦ (.ofNat 32 entry.2, entry.1)
  vars : final.record.vars = .ofList ((first.told events).filterMap Notice.declared?)
  listed : final.record.vars.entries = (first.told events).filterMap Notice.declared?
  answers : (first.told events).filterMap Notice.answer? =
    (first.visits events).filterMap Visit.answer?
  losses : ((first.told events).filter Notice.isLoss).length = final.losses
  lost : (first.told events).filter Notice.isLoss = (first.visits events).filterMap Visit.loss?
  reads : (first.told events).filter Notice.isRead = (first.visits events).filterMap Visit.read?
  writes : (first.told events).filter Notice.isWrite =
    (first.visits events).filterMap Visit.write?
  read : ∀ visit ∈ first.visits events, askedTypes visit.before ≠ [] → ∀ id address,
    visit.event.loads? = some (id, address) → ∃ operand, visit.pushed? = some operand ∧
      visit.told.filter Notice.isRead = [.memoryRead id address operand]
  write : ∀ visit ∈ first.visits events, askedTypes visit.before ≠ [] → ∀ id address,
    visit.event.stores? = some (id, address) →
      ∃ operand, visit.machine.stack.head? = some operand ∧
        visit.told.filter Notice.isWrite = [.memoryWrite id address operand]
  early : ∀ visit ∈ first.visits events, askedTypes visit.before = [] →
    visit.event.asked? = none → ∀ notice ∈ visit.told, notice.isControl = true

/-- An observer sees the complete run: the path with its constraints, the inputs with their types
and values, and the losses can be read off the notices, every access after the first input is told
once with the operand that it moves, and before the first input there is nothing but branches, calls
and returns.  The types are listed in the order told, since the numbers tell the inputs apart. -/
theorem run_observed {policy : PointerPolicy} {inputs : List Value}
    (narrow : (askedTypes events).length ≤ 2 ^ 32)
    (ran : (start policy inputs).run events = .ok final) :
    Observed (start policy inputs) events final where
  visited := map_event_visits ran
  waiting _ member := awaitingInput_visit ran member
  branches := entries_run ran
  constraints := constraints_told_run ran
  numbered := declared_run ran
  vars := vars_run ran
  listed := (entries_vars_run_iff ran).mpr narrow
  answers := answers_run ran
  losses := losses_told_run ran
  lost := filter_told_run ran fun visit _ stepped ↦ (account_step stepped).lost_told visit.before
  reads := filter_told_run ran fun visit _ stepped ↦
    (account_step stepped).reads_told visit.before stepped
  writes := filter_told_run ran fun visit _ stepped ↦
    (account_step stepped).writes_told visit.before
  read _ member asked _ _ loads := read_run ran member asked loads
  write _ member asked _ _ stores := write_run ran member asked stores
  early _ member early quiet := early_run ran member early quiet

/-- A call and a branch before the first input, a load and a store through a pointer that depends on
it, and a branch on what was stored. -/
def pointedEvents : List Event :=
  [.call 1 7, .branch 2 10 true, .store 3 0x3000, .newInput .pointer 0x1000,
    .load 4 0x1000 .pointer 0x2000, .deref 5 0x2000 .int 3, .store 6 0x3000,
    .newInput .int 0x1008, .load 7 0x1000 .pointer 0x2000, .load 8 0x1008 .int 5,
    .write 9 0x2000, .load 10 0x2000 .int 5, .branch 11 12 true, .ret 12]

theorem run_observed_pointed :
    ∃ final, (start .forget [0x2000, 5]).run pointedEvents = .ok final ∧
      ((start .forget [0x2000, 5]).told pointedEvents).length = 15 ∧
      final.losses = 2 ∧ final.record.path.branches = [callBranch, 10, 12, returnBranch] ∧
      (askedTypes pointedEvents).length ≤ 2 ^ 32 ∧
      Observed (start .forget [0x2000, 5]) pointedEvents final := by
  have narrow : (askedTypes pointedEvents).length ≤ 2 ^ 32 := by decide
  have told : ((start .forget [0x2000, 5]).told pointedEvents).length = 15 := by decide +kernel
  have figures : ((start .forget [0x2000, 5]).run pointedEvents).toOption.map
      (fun final ↦ (final.losses, final.record.path.branches)) =
        some (2, [callBranch, 10, 12, returnBranch]) := by decide +kernel
  cases ran : (start .forget [0x2000, 5]).run pointedEvents with
  | error fault =>
    rw [ran] at figures
    cases figures
  | ok final =>
    rw [ran] at figures
    obtain ⟨losses, branches⟩ := Prod.mk.inj (Option.some.inj figures)
    exact ⟨final, rfl, told, losses, branches, narrow, run_observed narrow ran⟩

/-- The first input and the one after the last number are told under the same number, of which there
is one entry.  And no notice tells of a region that is allocated over an input. -/
theorem not_run_observed_wrapped :
    (¬∀ (policy : PointerPolicy) (inputs : List Value) (events : List Event) (final : Machine),
      (start policy inputs).run events = .ok final →
        Observed (start policy inputs) events final) ∧
    ¬∀ (policy : PointerPolicy) (inputs : List Value) (events others : List Event)
      (final other : Machine), (start policy inputs).run events = .ok final →
        (start policy inputs).run others = .ok other →
        (start policy inputs).told events = (start policy inputs).told others →
          final.record = other.record := by
  constructor
  · intro all
    obtain ⟨vars, ran⟩ := run_lastDiffers .forget (2 ^ 32)
    have narrow := (entries_vars_run_iff ran).mp (all _ _ _ _ ran).listed
    have asks : Event.asked? (.newInput .int 16) = some .int := rfl
    rw [askedTypes, List.filterMap_replicate_of_some asks, List.length_replicate] at narrow
    exact absurd narrow (by decide)
  · intro all
    have same := all .forget [5] [.newInput .int 16] [.newInput .int 16, .alloc 1 16 4] _ _ rfl rfl
      rfl
    exact absurd (congrArg (fun record ↦ record.memory.size) same) (by decide)

end Machine

end Concolic
