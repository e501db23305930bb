import Concolic.Inspector.Basic
import Concolic.Proofs.Machine.Leaves

/-!
# The path as a journal

The path of a run is told by its events: every branch, call and return enters one branch, in order,
and every branch that an input decides adds a constraint that points back at its entry.  Nothing is
ever taken back.
-/

namespace Concolic

/-- The branch that an event enters on the path. -/
def Event.entry? : Event → Option BranchId
  | .branch _ site _ => some site
  | .call .. => some Machine.callBranch
  | .ret .. => some Machine.returnBranch
  | _ => none

def entries (events : List Event) : List BranchId :=
  events.filterMap Event.entry?

def Event.isCall : Event → Bool
  | .call .. => true
  | _ => false

def Event.isReturn : Event → Bool
  | .ret .. => true
  | _ => false

/-- An event of a run, with the events before it and the machine that it meets. -/
structure Visit where
  before : List Event
  machine : Machine
  event : Event

namespace Visit

/-- The expression that decides a branch after the first input, with the direction taken: the one
operand that is pending, if it depends on inputs. -/
def decider? (visit : Visit) : Option (Expr × Bool) :=
  if (askedTypes visit.before).isEmpty then none
  else
    match visit.event, visit.machine.stack with
    | .branch _ _ taken, [.symbolic e] => some (e, taken)
    | _, _ => none

/-- The constraint points at the entry of the branch, which comes behind those before it. -/
def constraint? (visit : Visit) : Option Constraint :=
  visit.decider?.map fun decider ↦
    ⟨.ofNat 64 (entries visit.before).length, decider.1.condition, decider.2⟩

variable {visit : Visit} {e : Expr} {taken : Bool} {constraint : Constraint}

theorem decider?_eq_some_iff :
    visit.decider? = some (e, taken) ↔
      askedTypes visit.before ≠ [] ∧ visit.machine.stack = [.symbolic e] ∧
        ∃ id site, visit.event = .branch id site taken := by
  unfold decider?
  split
  · next none =>
    rw [List.isEmpty_iff] at none
    simp [none]
  · next asked =>
    rw [List.isEmpty_iff] at asked
    split
    · next id site way expr event stack =>
      rw [event, stack]
      constructor
      · rintro ⟨⟩
        exact ⟨asked, rfl, id, site, rfl⟩
      · rintro ⟨-, ⟨⟩, _, _, ⟨⟩⟩
        rfl
    · next other =>
      constructor
      · rintro ⟨⟩
      · rintro ⟨-, stack, id, site, event⟩
        exact absurd stack (other id site taken e event)

theorem exists_of_constraint? (found : visit.constraint? = some constraint) :
    ∃ id site, visit.event = .branch id site constraint.taken := by
  obtain ⟨⟨e, taken⟩, decides, rfl⟩ := Option.map_eq_some_iff.mp found
  exact (decider?_eq_some_iff.mp decides).2.2

theorem toNat_branch (found : visit.constraint? = some constraint)
    (narrow : (entries visit.before).length < 2 ^ 64) :
    constraint.branch.toNat = (entries visit.before).length := by
  obtain ⟨decider, -, rfl⟩ := Option.map_eq_some_iff.mp found
  exact Nat.mod_eq_of_lt narrow

theorem constraint?_eq_none (other : ∀ id site taken, visit.event ≠ .branch id site taken) :
    visit.constraint? = none := by
  rw [constraint?, Option.map_eq_none_iff, Option.eq_none_iff_forall_ne_some]
  rintro ⟨e, taken⟩ decides
  obtain ⟨-, -, id, site, event⟩ := decider?_eq_some_iff.mp decides
  exact other id site taken event

end Visit

theorem entries_append (before after : List Event) :
    entries (before ++ after) = entries before ++ entries after :=
  List.filterMap_append

theorem entries_singleton (event : Event) : entries [event] = event.entry?.toList := by
  rw [entries]
  cases entry : event.entry? <;> simp [entry]

/-- Numbers are printed with digits and signs. -/
theorem toString_int_ne_mark (n : Int) : toString n ≠ "?" := by
  intro same
  have mark : '?' ∈ (toString n).toList := by
    rw [same]
    decide
  have noDigit (k : Nat) : '?' ∉ k.repr.toList := by
    rw [Nat.toList_repr]
    intro member
    have digit := Nat.isDigit_of_mem_toDigits (by decide) (by decide) member
    contradiction
  cases n with
  | ofNat n => exact noDigit n mark
  | negSucc n =>
    rw [show toString (Int.negSucc n) = "-" ++ Nat.repr (n + 1) from rfl, String.toList_append,
      List.mem_append] at mark
    rcases mark with sign | digits
    · exact absurd sign (by decide)
    · exact noDigit (n + 1) digits

theorem Inspector.branchLabel_ne_mark {path : Path} {constraint : Constraint} {site : BranchId}
    (pointed : path.branchOf? constraint = some site) : branchLabel path constraint ≠ "?" := by
  rw [branchLabel, pointed]
  exact toString_int_ne_mark site.toInt

namespace Machine

/-- The events of a run one by one, behind those already seen and up to the first fault. -/
def visitsFrom (seen : List Event) (machine : Machine) : List Event → List Visit
  | [] => []
  | event :: rest =>
    ⟨seen, machine, event⟩ ::
      match machine.step event with
      | .error _ => []
      | .ok step => visitsFrom (seen ++ [event]) step.machine rest

def visits (machine : Machine) (events : List Event) : List Visit :=
  machine.visitsFrom [] events

variable {machine middle final : Machine} {next : Step} {seen before after events : List Event}
  {event : Event} {visit : Visit}

theorem visitsFrom_singleton (seen : List Event) (machine : Machine) (event : Event) :
    machine.visitsFrom seen [event] = [⟨seen, machine, event⟩] := by
  unfold visitsFrom
  cases machine.step event <;> rfl

theorem visitsFrom_append (ran : machine.run before = .ok middle) :
    machine.visitsFrom seen (before ++ after) =
      machine.visitsFrom seen before ++ middle.visitsFrom (seen ++ before) after := by
  induction before generalizing machine seen with
  | nil =>
    cases ran
    rw [List.append_nil]
    rfl
  | cons event rest ih =>
    obtain ⟨step, stepped, ran⟩ := run_cons_eq_ok.mp ran
    simp only [List.cons_append, visitsFrom, stepped, ih ran, List.append_assoc, List.nil_append]

theorem visits_append (ran : machine.run before = .ok middle) (after : List Event) :
    machine.visits (before ++ after) =
      machine.visits before ++ middle.visitsFrom before after :=
  visitsFrom_append ran

theorem visits_concat (ran : machine.run events = .ok middle) (event : Event) :
    machine.visits (events ++ [event]) = machine.visits events ++ [⟨events, middle, event⟩] := by
  rw [visits_append ran, visitsFrom_singleton]

/-- A visited event is one of the run, and the events before it lead to the machine that it
meets. -/
theorem mem_visits (ran : machine.run events = .ok final) (member : visit ∈ machine.visits events) :
    machine.run visit.before = .ok visit.machine ∧
      ∃ after, events = visit.before ++ visit.event :: after := by
  revert member
  refine run_induction ran (fun member ↦ by cases member)
    fun seen middle event step ranSeen ih _ member ↦ ?_
  rw [visits_concat ranSeen] at member
  rcases List.mem_append.mp member with earlier | last
  · obtain ⟨ranBefore, after, split⟩ := ih earlier
    refine ⟨ranBefore, after ++ [event], ?_⟩
    rw [split, List.append_assoc, List.cons_append]
  · obtain rfl := List.mem_singleton.mp last
    exact ⟨ranSeen, [], rfl⟩

theorem map_event_visits (ran : machine.run events = .ok final) :
    (machine.visits events).map Visit.event = events := by
  refine run_induction ran rfl fun seen middle event step ranSeen ih _ ↦ ?_
  rw [visits_concat ranSeen, List.map_append, ih, List.map_singleton]

/-! ## Steps -/

/-- An event that enters no branch leaves the path alone. -/
theorem path_step (quiet : event.entry? = none) (ran : machine.step event = .ok next) :
    next.machine.record.path = machine.record.path := by
  cases event with
  | branch | call | ret => cases quiet
  | newInput ty address =>
    obtain ⟨-, entry, memory, -, -, result⟩ := newInput_inv ran
    rw [result]
  | _ => exact congrArg Ledger.path (ledger_step rfl ran)

theorem branches_step (ran : machine.step event = .ok next) :
    next.machine.record.path.branches =
      machine.record.path.branches ++ event.entry?.toList := by
  cases event with
  | branch id site taken =>
    rcases branch_inv ran with ⟨-, result⟩ | ⟨-, ⟨typed, -, result⟩ | ⟨e, -, result⟩⟩ <;>
      (rw [result]; rfl)
  | call id function =>
    rw [call_inv ran]
    rfl
  | ret id =>
    obtain ⟨scope, scopes, pending, -, -, result⟩ := ret_inv ran
    rw [result]
    rfl
  | _ =>
    rw [path_step rfl ran]
    exact (List.append_nil _).symm

/-- A branch adds its constraint behind the others. -/
theorem constraints_branch {id : InstructionId} {site : BranchId} {taken : Bool}
    (waiting : machine.awaitingInput = (askedTypes before).isEmpty)
    (entered : machine.record.path.branches = entries before)
    (ran : machine.branch id site taken = .ok next) :
    next.machine.record.path.constraints = machine.record.path.constraints ++
      (Visit.mk before machine (.branch id site taken)).constraint?.toList := by
  rcases branch_inv ran with
    ⟨idle, result⟩ | ⟨active, ⟨typed, stack, result⟩ | ⟨e, stack, result⟩⟩
  · have none : (Visit.mk before machine (.branch id site taken)).decider? = none :=
      if_pos (waiting ▸ idle)
    rw [result, Visit.constraint?, none]
    exact (List.append_nil _).symm
  · have none : (Visit.mk before machine (.branch id site taken)).decider? = none := by
      simp [Visit.decider?, stack]
    rw [result, Visit.constraint?, none]
    exact (List.append_nil _).symm
  · have asked : askedTypes before ≠ [] := fun none ↦ by
      rw [waiting, none] at active
      contradiction
    have decides : (Visit.mk before machine (.branch id site taken)).decider? = some (e, taken) :=
      Visit.decider?_eq_some_iff.mpr ⟨asked, stack, id, site, rfl⟩
    rw [result, Visit.constraint?, decides, ← entered]
    rfl

/-- The constraint that an event adds is told by the events before it and the operand that is
pending. -/
theorem constraints_step (waiting : machine.awaitingInput = (askedTypes before).isEmpty)
    (entered : machine.record.path.branches = entries before)
    (ran : machine.step event = .ok next) :
    next.machine.record.path.constraints =
      machine.record.path.constraints ++ (Visit.mk before machine event).constraint?.toList := by
  -- Only a branch can have a constraint; the other events leave the constraints alone.
  cases event with
  | branch id site taken => exact constraints_branch waiting entered ran
  | call id function =>
    rw [call_inv ran, Visit.constraint?_eq_none fun id site taken ↦ Event.noConfusion]
    exact (List.append_nil _).symm
  | ret id =>
    obtain ⟨scope, scopes, pending, -, -, result⟩ := ret_inv ran
    rw [result, Visit.constraint?_eq_none fun id site taken ↦ Event.noConfusion]
    exact (List.append_nil _).symm
  | _ =>
    rw [path_step rfl ran, Visit.constraint?_eq_none fun id site taken ↦ Event.noConfusion]
    exact (List.append_nil _).symm

/-- Calls enter a function and returns leave one. -/
theorem depth_step (ran : machine.step event = .ok next) :
    next.machine.depth + [event].countP Event.isReturn =
      machine.depth + [event].countP Event.isCall := by
  cases event with
  | newInput ty address =>
    obtain ⟨-, entry, memory, -, -, result⟩ := newInput_inv ran
    rw [result]
    rfl
  | branch id site taken =>
    rcases branch_inv ran with ⟨-, result⟩ | ⟨-, ⟨typed, -, result⟩ | ⟨e, -, result⟩⟩ <;>
      (rw [result]; rfl)
  | call id function =>
    rw [call_inv ran]
    rfl
  | ret id =>
    obtain ⟨scope, scopes, pending, entered, -, result⟩ := ret_inv ran
    rw [result, depth, depth, entered]
    rfl
  | _ => exact congrArg (·.scopes.length) (ledger_step rfl ran)

/-! ## Runs -/

section Runs

variable {policy : PointerPolicy} {inputs : List Value}
  (ran : (start policy inputs).run events = .ok final)

include ran

theorem branches_run : final.record.path.branches = entries events := by
  refine run_induction ran rfl fun seen middle event step _ ih stepped ↦ ?_
  rw [branches_step stepped, ih, entries_append, entries_singleton]

theorem constraints_run :
    final.record.path.constraints =
      ((start policy inputs).visits events).filterMap Visit.constraint? := by
  refine run_induction ran rfl fun seen middle event step ranSeen ih stepped ↦ ?_
  rw [constraints_step (awaitingInput_run rfl ranSeen) (branches_run ranSeen) stepped, ih,
    visits_concat ranSeen, List.filterMap_append]
  cases found : (Visit.mk seen middle event).constraint? <;> simp [found]

theorem depth_run :
    final.depth + events.countP Event.isReturn = events.countP Event.isCall := by
  refine run_induction ran rfl fun seen middle event step _ ih stepped ↦ ?_
  have balance := depth_step stepped
  rw [List.countP_append, List.countP_append, ← ih]
  omega

/-- A constraint has the index of the entry that its branch makes, which is greater than all indices
before it. -/
theorem ascending_run (narrow : (entries events).length ≤ 2 ^ 64) :
    final.record.path.constraints.Pairwise (·.branch < ·.branch) ∧
      ∀ constraint ∈ final.record.path.constraints,
        constraint.branch.toNat < (entries events).length := by
  -- The second half bounds the earlier indices when a constraint is added.
  revert narrow
  refine run_induction ran (fun _ ↦ ⟨List.Pairwise.nil, fun _ member ↦ by cases member⟩)
    fun seen middle event step ranSeen ih stepped narrow ↦ ?_
  have longer : (entries seen).length ≤ (entries (seen ++ [event])).length := by
    rw [entries_append, List.length_append]
    exact Nat.le_add_right _ _
  obtain ⟨ascending, below⟩ := ih (Nat.le_trans longer narrow)
  rw [constraints_step (awaitingInput_run rfl ranSeen) (branches_run ranSeen) stepped]
  cases found : (Visit.mk seen middle event).constraint? with
  | none =>
    rw [Option.toList_none, List.append_nil]
    exact ⟨ascending, fun constraint member ↦ Nat.lt_of_lt_of_le (below constraint member) longer⟩
  | some new =>
    obtain ⟨id, site, branch⟩ := Visit.exists_of_constraint? found
    have entered : (entries (seen ++ [event])).length = (entries seen).length + 1 := by
      rw [entries_append, List.length_append, show event = _ from branch]
      rfl
    have index : new.branch.toNat = (entries seen).length :=
      Visit.toNat_branch found (show (entries seen).length < 2 ^ 64 by omega)
    rw [Option.toList_some, List.pairwise_append]
    refine ⟨⟨ascending, List.pairwise_singleton _ _, fun old member last same ↦ ?_⟩,
      fun constraint member ↦ ?_⟩
    · obtain rfl := List.mem_singleton.mp same
      rw [BitVec.lt_def, index]
      exact below old member
    · rcases List.mem_append.mp member with old | last
      · exact Nat.lt_of_lt_of_le (below constraint old) longer
      · obtain rfl := List.mem_singleton.mp last
        omega

theorem prefix_run (split : events = before ++ after)
    (ranBefore : (start policy inputs).run before = .ok middle) :
    middle.record.path.branches <+: final.record.path.branches ∧
      middle.record.path.constraints <+: final.record.path.constraints := by
  rw [branches_run ran, branches_run ranBefore, constraints_run ran, constraints_run ranBefore,
    split, entries_append, visits_append ranBefore, List.filterMap_append]
  exact ⟨List.prefix_append _ _, List.prefix_append _ _⟩

/-- A constraint points at the entry of the branch that added it. -/
theorem branchOf?_run (narrow : (entries events).length ≤ 2 ^ 64)
    (member : visit ∈ (start policy inputs).visits events) {constraint : Constraint}
    (found : visit.constraint? = some constraint) :
    ∃ id site, visit.event = .branch id site constraint.taken ∧
      final.record.path.branchOf? constraint = some site := by
  obtain ⟨id, site, event⟩ := Visit.exists_of_constraint? found
  obtain ⟨-, after, split⟩ := mem_visits ran member
  have entered : entries events = entries visit.before ++ site :: entries after := by
    rw [split, event, entries_append]
    rfl
  have narrowBefore : (entries visit.before).length < 2 ^ 64 := by
    rw [entered, List.length_append, List.length_cons] at narrow
    omega
  refine ⟨id, site, event, ?_⟩
  rw [Path.branchOf?, branches_run ran, Visit.toNat_branch found narrowBefore, entered,
    List.getElem?_append_right (Nat.le_refl _), Nat.sub_self]
  rfl

/-- The condition of a constraint compares, and is true where the operand is not zero. -/
theorem condition_run (member : visit ∈ (start policy inputs).visits events) {e : Expr}
    {taken : Bool} (decides : visit.decider? = some (e, taken)) :
    e.condition.isComparison = true ∧
      (e.ty ≠ .struct → ∀ others, e.condition.evaluate others ≠ 0 ↔ e.evaluate others ≠ 0) := by
  refine ⟨e.condition_isComparison, fun scalar others ↦ ?_⟩
  obtain ⟨ranBefore, -⟩ := mem_visits ran member
  obtain ⟨-, stack, -⟩ := Visit.decider?_eq_some_iff.mp decides
  have converted : e.LeavesIn Leaf.IsConverted :=
    (convertedLeaves_run ranBefore).stack (.symbolic e) (by simp [stack])
  have same := Expr.evaluate_condition (Expr.isConverted_of_leavesIn converted) scalar others
  rw [← bne_iff_ne, ← bne_iff_ne, same]

end Runs

/-- What the path of a run has to show for the events of the run.  Indices have 64 bits, which is
enough for every path that fits in memory. -/
structure Journal (first : Machine) (events : List Event) (final : Machine) : Prop where
  visited : (first.visits events).map Visit.event = events
  reached : ∀ visit ∈ first.visits events, first.run visit.before = .ok visit.machine ∧
    ∃ after, events = visit.before ++ visit.event :: after
  branches : final.record.path.branches = entries events
  constraints :
    final.record.path.constraints = (first.visits events).filterMap Visit.constraint?
  kept : ∀ before after middle, events = before ++ after → first.run before = .ok middle →
    middle.record.path.branches <+: final.record.path.branches ∧
      middle.record.path.constraints <+: final.record.path.constraints
  ascending : (entries events).length ≤ 2 ^ 64 →
    final.record.path.constraints.Pairwise (·.branch < ·.branch) ∧
      ∀ constraint ∈ final.record.path.constraints,
        constraint.branch.toNat < final.record.path.branches.length
  pointing : (entries events).length ≤ 2 ^ 64 →
    ∀ visit ∈ first.visits events, ∀ constraint, visit.constraint? = some constraint →
      ∃ id site, visit.event = .branch id site constraint.taken ∧
        final.record.path.branchOf? constraint = some site ∧
        Inspector.branchLabel final.record.path constraint ≠ "?"
  deciding : ∀ visit ∈ first.visits events, ∀ e taken, visit.decider? = some (e, taken) →
    e.condition.isComparison = true ∧
      (e.ty ≠ .struct → ∀ others, e.condition.evaluate others ≠ 0 ↔ e.evaluate others ≠ 0)
  depth : final.depth + events.countP Event.isReturn = events.countP Event.isCall
  untouched : ∀ before after middle, events = before ++ after →
    first.run before = .ok middle → askedTypes before = [] → middle.Untouched

/-- The path of every run is a faithful journal of its events, and append-only: one entry for each
branch, call and return in order, and one constraint, pointing at its entry and true exactly where
the operand is not zero, for each branch that an input decides.  Calls and returns balance, and
before the first input there is nothing but entries. -/
theorem run_keeps_journal {policy : PointerPolicy} {inputs : List Value}
    (ran : (start policy inputs).run events = .ok final) :
    Journal (start policy inputs) events final where
  visited := map_event_visits ran
  reached _ member := mem_visits ran member
  branches := branches_run ran
  constraints := constraints_run ran
  kept _ _ _ split ranBefore := prefix_run ran split ranBefore
  ascending narrow := by
    rw [branches_run ran]
    exact ascending_run ran narrow
  pointing narrow visit member constraint found := by
    obtain ⟨id, site, event, pointed⟩ := branchOf?_run ran narrow member found
    exact ⟨id, site, event, pointed, Inspector.branchLabel_ne_mark pointed⟩
  deciding visit member e taken decides := condition_run ran member decides
  depth := depth_run ran
  untouched _ _ _ _ ranBefore none := (untouched_start policy inputs).run rfl none ranBefore

/-- Branches before the first input, on an input, on nothing that depends on it, and on the result
of a call. -/
def returnedEvents : List Event :=
  [.branch 1 10 true, .call 2 7, .newInput .int 0x1000, .load 3 0x1000 .int 5, .branch 4 11 true,
    .load 5 0x2000 .int 3, .branch 6 12 false, .load 7 0x1000 .int 5, .ret 8,
    .takeResult 9 .int 5, .branch 10 13 false]

theorem run_keeps_journal_returned :
    ∃ final, (start .forget [5]).run returnedEvents = .ok final ∧
      final.record.path.branches = [10, callBranch, 11, 12, returnBranch, 13] ∧
      final.record.path.constraints.map (·.branch) = [2, 5] ∧ final.depth = 0 ∧
      Journal (start .forget [5]) returnedEvents final := by
  have ran : ∃ final, (start .forget [5]).run returnedEvents = .ok final ∧
      final.record.path.branches = [10, callBranch, 11, 12, returnBranch, 13] ∧
      final.record.path.constraints.map (·.branch) = [2, 5] ∧ final.depth = 0 :=
    ⟨_, rfl, rfl, rfl, rfl⟩
  obtain ⟨final, ran, branches, constraints, depth⟩ := ran
  exact ⟨final, ran, branches, constraints, depth, run_keeps_journal ran⟩

end Machine

end Concolic
