import Concolic.Proofs.Machine.Leaves

/-!
# Where inputs come from

New inputs are the only source of input leaves.  They are numbered in the order in which they are
asked for, and the number of an input, its type and its value stay the same in every expression
that it gets into, through operators, memory, copies and calls.
-/

namespace Concolic

/-- A leaf that is an input is one of those asked for, with the type asked for and the value
given. -/
def Leaf.IsGiven (inputs : List Value) (types : List CType) : Leaf → Prop
  | .input id ty value =>
    types[id.toNat]? = some ty ∧ inputs[id.toNat]?.map ty.normalize = some value
  | .const .. => True

namespace Machine

/-- Inputs of the given types have been asked for, in that order, and no others. -/
structure Asks (inputs : List Value) (types : List CType) (machine : Machine) : Prop where
  given : machine.record.inputs = inputs
  count : machine.inputCount = types.length
  supplied : types.length ≤ inputs.length
  vars : ∀ id, machine.record.vars.get? id = types[id.toNat]?
  size : machine.record.vars.size = types.length
  leaves : machine.LeavesIn (Leaf.IsGiven inputs types)

variable {machine : Machine} {next : Step} {inputs : List Value} {types : List CType}

theorem asks_start (policy : PointerPolicy) (inputs : List Value) :
    (start policy inputs).Asks inputs [] where
  given := rfl
  count := rfl
  supplied := Nat.zero_le _
  vars _ := rfl
  size := rfl
  leaves := leavesIn_start _ policy inputs

theorem Asks.consumedInputs (asks : machine.Asks inputs types) :
    machine.record.consumedInputs = inputs.take types.length := by
  rw [Record.consumedInputs, asks.given, asks.size]

theorem isGiven_append (more : List CType) {leaf : Leaf} (given : leaf.IsGiven inputs types) :
    leaf.IsGiven inputs (types ++ more) := by
  cases leaf with
  | const => trivial
  | input id ty value =>
    have inside := (List.getElem?_eq_some_iff.mp given.1).1
    exact ⟨(List.getElem?_append_left inside).trans given.1, given.2⟩

/-- The leaf of a new input has the next number. -/
theorem isGiven_next (narrow : types.length < 2 ^ 32) {ty : CType} {entry : Value}
    (given : inputs[types.length]? = some entry) :
    (Leaf.input (.ofNat 32 types.length) ty (ty.normalize entry)).IsGiven inputs
      (types ++ [ty]) := by
  have number : (BitVec.ofNat 32 types.length).toNat = types.length := Nat.mod_eq_of_lt narrow
  rw [Leaf.IsGiven, number]
  exact ⟨List.getElem?_concat_length, by rw [given]; rfl⟩

/-- Declaring the type of the next input lists it behind the others. -/
theorem get?_insert_next {vars : WordMap 32 CType}
    (listed : ∀ id, vars.get? id = types[id.toNat]?) (narrow : types.length < 2 ^ 32) (ty : CType)
    (id : InputId) :
    (vars.insert (.ofNat 32 types.length) ty).get? id = (types ++ [ty])[id.toNat]? := by
  have number : (BitVec.ofNat 32 types.length).toNat = types.length := Nat.mod_eq_of_lt narrow
  rw [WordMap.get?_insert, listed]
  split
  · next same => rw [same, number, List.getElem?_concat_length]
  · next other =>
    have apart : id.toNat ≠ types.length := fun same ↦
      other (BitVec.eq_of_toNat_eq (same.trans number.symm))
    rcases Nat.lt_or_gt_of_ne apart with below | above
    · rw [List.getElem?_append_left below]
    · rw [List.getElem?_eq_none (Nat.le_of_lt above), List.getElem?_eq_none]
      rw [List.length_append, List.length_singleton]
      exact above

theorem Asks.newInput (asks : machine.Asks inputs types) (narrow : types.length < 2 ^ 32)
    {ty : CType} {address : Address} (ran : machine.newInput ty address = .ok next) :
    next.machine.Asks inputs (types ++ [ty]) := by
  have leaves : next.machine.LeavesIn (Leaf.IsGiven inputs (types ++ [ty])) := by
    refine (asks.leaves.mono fun leaf ↦ isGiven_append [ty]).newInput (fun entry given ↦ ?_) ran
    rw [asks.given, asks.count] at given
    rw [asks.count]
    exact isGiven_next narrow given
  obtain ⟨-, entry, memory, given, -, result⟩ := newInput_inv ran
  rw [asks.given, asks.count] at given
  -- Only smaller numbers have been declared, so the declaration adds an entry.
  have absent : machine.record.vars.get? (.ofNat 32 types.length) = none := by
    rw [asks.vars, BitVec.toNat_ofNat, Nat.mod_eq_of_lt narrow]
    exact List.getElem?_eq_none (Nat.le_refl _)
  rw [result] at leaves ⊢
  refine ⟨asks.given, ?_, ?_, fun id ↦ ?_, ?_, leaves⟩
  · rw [asks.count, List.length_append, List.length_singleton]
  · rw [List.length_append, List.length_singleton]
    exact (List.getElem?_eq_some_iff.mp given).1
  · rw [asks.count]
    exact get?_insert_next asks.vars narrow ty id
  · rw [asks.count, WordMap.size_insert _ ty absent, asks.size, List.length_append,
      List.length_singleton]

/-- An event adds the type that it asks for, if any. -/
theorem Asks.step (asks : machine.Asks inputs types) {event : Event}
    (narrow : (types ++ event.asked?.toList).length ≤ 2 ^ 32)
    (ran : machine.step event = .ok next) :
    next.machine.Asks inputs (types ++ event.asked?.toList) := by
  cases asked : event.asked? with
  | some ty =>
    cases event with
    | newInput type address =>
      cases asked
      rw [Event.asked?, Option.toList_some, List.length_append] at narrow
      exact asks.newInput narrow ran
    | _ => cases asked
  | none =>
    obtain ⟨vars, count, -⟩ := asked_step asked ran
    have leaves : next.machine.LeavesIn (Leaf.IsGiven inputs types) := by
      refine leavesIn_step asks.leaves (fun _ _ ↦ trivial) (fun ty address entry new ↦ ?_) ran
      rw [new] at asked
      cases asked
    rw [Option.toList_none, List.append_nil]
    exact ⟨(inputs_step ran).trans asks.given, count.trans asks.count, asks.supplied,
      vars ▸ asks.vars, vars ▸ asks.size, leaves⟩

theorem asks_run {policy : PointerPolicy} {events : List Event} {final : Machine}
    (narrow : (askedTypes events).length ≤ 2 ^ 32)
    (ran : (start policy inputs).run events = .ok final) :
    final.Asks inputs (askedTypes events) := by
  revert narrow
  refine run_induction ran (fun _ ↦ asks_start policy inputs)
    fun seen middle event step _ ih stepped narrow ↦ ?_
  rw [askedTypes_concat] at narrow ⊢
  have fewer : (askedTypes seen).length ≤ 2 ^ 32 := by
    rw [List.length_append] at narrow
    omega
  exact (ih fewer).step narrow stepped

/-- A new input is answered with the next value given, converted to the type asked for. -/
theorem Asks.result_newInput (asks : machine.Asks inputs types) {ty : CType} {address : Address}
    (ran : machine.step (.newInput ty address) = .ok next) :
    ∃ entry, inputs[types.length]? = some entry ∧ next.result = some (ty.normalize entry) := by
  obtain ⟨-, entry, -, given, -⟩ := newInput_inv ran
  refine ⟨entry, ?_, ?_⟩
  · rw [← asks.given, ← asks.count, given]
  · rw [newInput_result ran, given]
    rfl

/-- Inputs are the only source of symbolic values, and keep their identity.  After a run that asks
for no more inputs than numbers tell apart, the machine has counted them and declared their types
in order, the inputs are as they were and those consumed come first, and every input leaf on the
stack, in memory and in the constraints is one that was asked for, with its type and value.  The
`i`-th new input was answered with the `i`-th value given, converted to the type asked for. -/
theorem run_declares_inputs {policy : PointerPolicy} {events : List Event} {final : Machine}
    (narrow : (askedTypes events).length ≤ 2 ^ 32)
    (ran : (start policy inputs).run events = .ok final) :
    final.Asks inputs (askedTypes events) ∧
      final.record.consumedInputs = inputs.take (askedTypes events).length ∧
      ∀ before ty address after, events = before ++ .newInput ty address :: after →
        ∃ middle step entry, (start policy inputs).run before = .ok middle ∧
          middle.step (.newInput ty address) = .ok step ∧
          inputs[(askedTypes before).length]? = some entry ∧
          step.result = some (ty.normalize entry) := by
  have asks := asks_run narrow ran
  refine ⟨asks, asks.consumedInputs, ?_⟩
  rintro before ty address after rfl
  obtain ⟨middle, ranBefore, later⟩ := run_append_eq_ok.mp ran
  obtain ⟨step, stepped, -⟩ := run_cons_eq_ok.mp later
  have fewer : (askedTypes before).length ≤ 2 ^ 32 := by
    rw [askedTypes, List.filterMap_append, List.length_append] at narrow
    exact Nat.le_of_add_right_le narrow
  obtain ⟨entry, given, result⟩ := (asks_run fewer ranBefore).result_newInput stepped
  exact ⟨middle, step, entry, ranBefore, stepped, given, result⟩

/-- Two inputs that are assembled, combined, stored and cut before a branch, inside a call. -/
def interleavedEvents : List Event :=
  [.branch 1 7 true, .call 2 1, .newInput .bool 0x1000, .load 3 0x1000 .bool 1,
    .newInput .uchar 0x1001, .load 4 0x1000 .ushort 0x2c01, .binary 5 .xor .int 0x2c00,
    .store 6 0x2000, .load 7 0x2001 .uchar 0x2c, .branch 8 9 true, .ret 10]

theorem run_declares_inputs_interleaved :
    ∃ final, (start .forget [5, 300, 9]).run interleavedEvents = .ok final ∧
      (askedTypes interleavedEvents).length ≤ 2 ^ 32 ∧
      final.record.memory.size = 3 ∧ final.record.path.constraints.length = 1 ∧
      final.Asks [5, 300, 9] [.bool, .uchar] ∧ final.record.consumedInputs = [5, 300] ∧
      ∃ middle step, (start .forget [5, 300, 9]).run (interleavedEvents.take 4) = .ok middle ∧
        middle.step (.newInput .uchar 0x1001) = .ok step ∧ step.result = some 44 := by
  have narrow : (askedTypes interleavedEvents).length ≤ 2 ^ 32 := by decide
  have ran : ∃ final, (start .forget [5, 300, 9]).run interleavedEvents = .ok final ∧
      final.record.memory.size = 3 ∧ final.record.path.constraints.length = 1 :=
    ⟨_, rfl, rfl, rfl⟩
  obtain ⟨final, ran, bindings, constraints⟩ := ran
  obtain ⟨asks, consumed, answered⟩ := run_declares_inputs narrow ran
  obtain ⟨middle, step, entry, ranBefore, stepped, given, result⟩ :=
    answered (interleavedEvents.take 4) .uchar 0x1001 (interleavedEvents.drop 5) rfl
  obtain rfl : (300 : Value) = entry := Option.some.inj given
  exact ⟨final, ran, narrow, bindings, constraints, asks, consumed, middle, step, ranBefore,
    stepped, result⟩

end Machine

end Concolic
