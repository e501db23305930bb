import Concolic.Proofs.Straight.Steps

/-!
# One run predicts all others

The symbolic execution of a straight-line program on one vector of inputs says what the program
does on every other of the same length: which bytes its memory has at the end, which values its
stack, and which directions its branches.
-/

namespace Concolic.Straight

open Machine

variable {machine : Machine} {own inputs : List Value} {seen seenNext state : State}
  {instr : Instr} {next : Step}

def Instr.isInput : Instr → Bool
  | .newInput .. => true
  | _ => false

def Instr.isBranch : Instr → Bool
  | .branch .. => true
  | _ => false

/-! ## Before the first input -/

theorem State.step_congr (plain : instr.isInput = false) (inputs others : List Value) :
    state.step inputs instr = state.step others instr := by
  cases instr with
  | newInput => contradiction
  | _ => rfl

/-- Only new inputs are counted, and only branches note a direction. -/
theorem State.step_frame (plain : instr.isInput = false)
    (stepped : state.step inputs instr = some seenNext) :
    seenNext.consumed = state.consumed ∧
      (instr.isBranch = false → seenNext.directions = state.directions) := by
  cases instr with
  | newInput => contradiction
  | load | dropOperands =>
    cases stepped
    exact ⟨rfl, fun _ ↦ rfl⟩
  | deref | store | write | unary =>
    simp only [State.step] at stepped
    split at stepped
    · cases stepped
      exact ⟨rfl, fun _ ↦ rfl⟩
    · contradiction
  | binary | compare | pointer =>
    obtain ⟨rhs, lhs, rest, -, rfl⟩ := State.onTwo_eq_some.mp stepped
    exact ⟨rfl, fun _ ↦ rfl⟩
  | branch =>
    simp only [State.step] at stepped
    split at stepped
    · cases stepped
      exact ⟨rfl, fun other ↦ by cases other⟩
    · contradiction

/-- Before the first input the machine notes branches and ignores everything else. -/
theorem step_waiting {after : State} (waiting : machine.awaitingInput = true)
    (plain : instr.isInput = false) (ran : machine.step (instr.event after) = .ok next) :
    (instr.isBranch = false ∧ next.machine = machine) ∨
      ∃ id site, instr = .branch id site ∧
        next.machine = machine.withPath (machine.record.path.push site) := by
  cases instr with
  | newInput => contradiction
  | branch id site =>
    rcases branch_inv ran with ⟨-, result⟩ | ⟨active, -⟩
    · exact .inr ⟨id, site, rfl, result⟩
    · rw [waiting] at active
      contradiction
  | _ =>
    simp only [Instr.event, Machine.step, Machine.load, Machine.deref, Machine.store,
      Machine.write, Machine.dropOperands, Machine.unary, Machine.binary, Machine.compare,
      Machine.pointer, Machine.onTwo, waiting, if_true] at ran
    cases ran
    exact .inl ⟨rfl, rfl⟩

theorem State.directions_branch {id : InstructionId} {site : BranchId}
    (stepped : state.step inputs (.branch id site) = some seenNext) :
    ∃ direction, seenNext.directions = state.directions ++ [direction] := by
  simp only [State.step] at stepped
  split at stepped
  · cases stepped
    exact ⟨_, rfl⟩
  · contradiction

/-- Before the first input all runs are the same. -/
theorem mirrors_waiting (mirrors : Mirrors machine seen inputs state)
    (waiting : machine.awaitingInput = true) (plain : instr.isInput = false)
    (stepped : seen.step own instr = some seenNext)
    (ran : machine.step (instr.event seenNext) = .ok next) :
    ∃ stateNext, state.step inputs instr = some stateNext ∧
      Mirrors next.machine seenNext inputs stateNext := by
  obtain ⟨same, none, empty⟩ := mirrors.waiting waiting
  obtain ⟨consumed, directions⟩ := State.step_frame plain stepped
  have branches := mirrors.directions
  have count := mirrors.consumed
  rw [same] at branches count ⊢
  -- the branches are all that the machine may note
  have noted (path : Path) (places : path.branches.length = seenNext.directions.length)
      (branches : Branches inputs path.constraints seenNext.directions seenNext.directions) :
      Mirrors (machine.withPath path) seenNext inputs seenNext := by
    refine ⟨fun _ ↦ ⟨rfl, none, empty⟩, fun active ↦ ?_, fun byte ↦ ?_, consumed.trans count,
      places, branches⟩
    · exact absurd (waiting.symm.trans active) (by decide)
    · show _ = Cells.foretold machine.record.memory.cells inputs seenNext.bytes byte
      rw [empty]
      rfl
  refine ⟨seenNext, (State.step_congr plain inputs own).trans stepped, ?_⟩
  rcases step_waiting waiting plain ran with ⟨noBranch, result⟩ | ⟨id, site, rfl, result⟩
  · rw [result]
    refine noted machine.record.path ?_ ?_
    · rw [directions noBranch]
      exact mirrors.places
    · rw [directions noBranch]
      exact branches
  · obtain ⟨direction, last⟩ := State.directions_branch stepped
    rw [result]
    refine noted (machine.record.path.push site) ?_ ?_
    · rw [last, Path.push, List.length_append, List.length_append, mirrors.places]
      rfl
    · rw [last]
      exact branches.plain direction

/-! ## One step -/

/-- One step of the machine on the driving run keeps it a mirror of the run on other inputs. -/
theorem mirrors_step (follows : Follows machine own seen)
    (mirrors : Mirrors machine seen inputs state) (long : inputs.length = own.length)
    (unwrapped : machine.Unwrapped (instr.event seenNext)) (regular : Regular seen instr)
    (stepped : seen.step own instr = some seenNext)
    (plain : PlainPointer machine (instr.event seenNext))
    (ran : machine.step (instr.event seenNext) = .ok next) :
    ∃ stateNext, state.step inputs instr = some stateNext ∧
      Mirrors next.machine seenNext inputs stateNext := by
  cases waiting : machine.awaitingInput with
  | true =>
    cases input : instr.isInput with
    | false => exact mirrors_waiting mirrors waiting input stepped ran
    | true =>
      cases instr with
      | newInput ty address =>
        exact mirrors_newInput follows mirrors long (unwrapped ty rfl) regular stepped ran
      | _ => contradiction
  | false =>
    -- what the step does to the stack is said once, for the driving run and for the other one
    have both (each : ∀ others state, Mirrors machine seen others state →
        StackStep machine next.machine others state instr) :
        ∃ stateNext, state.step inputs instr = some stateNext ∧
          Mirrors next.machine seenNext inputs stateNext :=
      StackStep.mirrors mirrors (each own seen follows.mirrors) (each inputs state mirrors) stepped
    cases instr with
    | newInput ty address =>
      exact mirrors_newInput follows mirrors long (unwrapped ty rfl) regular stepped ran
    | load id address ty =>
      cases stepped
      exact both fun others state mirrors ↦ step_load follows mirrors waiting regular ran
    | deref id address ty =>
      have top : seenNext.top = (seen.fetch address ty).value := by
        simp only [State.step] at stepped
        split at stepped
        · cases stepped
          rfl
        · contradiction
      rw [Instr.event, top] at ran
      exact both fun others state mirrors ↦ step_deref follows mirrors waiting regular plain ran
    | store id address => exact mirrors_store follows mirrors waiting regular stepped ran
    | write id address => exact mirrors_write follows mirrors waiting regular stepped ran
    | dropOperands id => exact both fun others state mirrors ↦ step_dropOperands waiting ran
    | unary id op ty =>
      exact both fun others state mirrors ↦ step_unary follows mirrors waiting stepped ran
    | binary id op ty =>
      have ran : machine.onTwo id (applyBinary op · · ty seenNext.top) = .ok next := ran
      refine both fun others state mirrors ↦
        step_onTwo mirrors waiting rfl (fun lhs rhs rest stack ↦ ?_) ran
      exact on_applyBinary others op regular.2 regular.1 (follows.top_binary stack stepped)
    | compare id op ty =>
      have ran : machine.onTwo id (applyCompare op · · ty seenNext.top) = .ok next := ran
      refine both fun others state mirrors ↦
        step_onTwo mirrors waiting rfl (fun lhs rhs rest stack ↦ ?_) ran
      have left : lhs ∈ machine.stack := by simp [stack]
      have right : rhs ∈ machine.stack := by simp [stack]
      exact on_applyCompare others op (follows.formed left) (follows.formed right)
        (follows.scalar_operand left) (follows.scalar_operand right)
        (follows.sameType stack regular) (follows.top_compare stack stepped)
    | pointer id op size =>
      have ran : machine.onTwo id (applyPointer op · · size seenNext.top) = .ok next := ran
      refine both fun others state mirrors ↦
        step_onTwo mirrors waiting rfl (fun lhs rhs rest stack ↦ ?_) ran
      exact on_applyPointer others op (follows.top_pointer stack stepped)
    | branch id site => exact mirrors_branch follows mirrors waiting stepped ran

/-- The machine's flag for a result that is not taken stays down. -/
theorem settled_step {after : State} (settled : machine.pendingReturn = false)
    (ran : machine.step (instr.event after) = .ok next) : next.machine.pendingReturn = false := by
  cases instr with
  | newInput ty address =>
    obtain ⟨-, entry, memory, -, -, result⟩ := newInput_inv ran
    rwa [result]
  | load id address ty =>
    rcases load_inv ran with ⟨-, same⟩ | ⟨-, reading, -, result⟩
    · rwa [same]
    · rw [result, settled]
      exact settled
  | deref id address ty =>
    rcases deref_inv ran with ⟨-, same⟩ | ⟨-, pointer, rest, reading, -, -, result⟩
    · rwa [same]
    · rwa [result]
  | store id address =>
    rcases store_inv ran with ⟨-, same⟩ | ⟨-, operand, rest, memory, -, -, result⟩
    · rwa [same]
    · rw [result]
      exact settled
  | write id address =>
    rcases write_inv ran with ⟨-, same⟩ | ⟨-, operand, pointer, rest, memory, -, -, result⟩
    · rwa [same]
    · rw [result]
      exact settled
  | dropOperands id =>
    rcases dropOperands_inv ran with ⟨-, same⟩ | ⟨-, result⟩
    · rwa [same]
    · rw [result]
      rfl
  | unary id op ty =>
    rcases unary_inv ran with ⟨-, same⟩ | ⟨-, operand, rest, -, result⟩
    · rwa [same]
    · rwa [result]
  | binary | compare | pointer =>
    simp only [Instr.event, Machine.step, Machine.binary, Machine.compare, Machine.pointer] at ran
    rcases onTwo_inv ran with ⟨-, same⟩ | ⟨-, rhs, lhs, rest, -, result⟩
    · rwa [same]
    · rwa [result]
  | branch id site =>
    rcases branch_inv ran with ⟨-, result⟩ | ⟨-, ⟨typed, -, result⟩ | ⟨e, -, result⟩⟩ <;>
      (rw [result]; exact settled)

/-- Instructions of scalar types leave scalars on the stack. -/
theorem scalar_step (regular : Regular seen instr)
    (scalar : ∀ typed ∈ seen.stack, typed.ty ≠ .struct)
    (stepped : seen.step own instr = some seenNext) :
    ∀ typed ∈ seenNext.stack, typed.ty ≠ .struct := by
  have pushed {typed : TypedValue} {rest : List TypedValue} (top : typed.ty ≠ .struct)
      (below : ∀ other ∈ rest, other ∈ seen.stack) : ∀ other ∈ typed :: rest, other.ty ≠ .struct :=
    List.forall_mem_cons.mpr ⟨top, fun other member ↦ scalar other (below other member)⟩
  cases instr with
  | newInput ty address =>
    simp only [State.step] at stepped
    split at stepped
    · cases stepped
      exact scalar
    · contradiction
  | load id address ty =>
    cases stepped
    exact pushed regular.1 fun _ member ↦ member
  | deref id address ty | unary id op ty =>
    simp only [State.step] at stepped
    split at stepped
    · next stack =>
      cases stepped
      exact pushed regular.1 fun _ member ↦ by simp [stack, member]
    · contradiction
  | store id address | write id address | branch id site =>
    simp only [State.step] at stepped
    split at stepped
    · next stack =>
      cases stepped
      exact fun typed member ↦ scalar typed (by rw [stack]; simp_all)
    · contradiction
  | dropOperands id =>
    cases stepped
    exact fun _ member ↦ by cases member
  | binary id op ty | compare id op ty =>
    obtain ⟨rhs, lhs, rest, stack, rfl⟩ := State.onTwo_eq_some.mp stepped
    exact pushed regular.1 fun _ member ↦ by simp [stack, member]
  | pointer id op size =>
    obtain ⟨rhs, lhs, rest, stack, rfl⟩ := State.onTwo_eq_some.mp stepped
    exact pushed op.resultType_ne_struct fun _ member ↦ by simp [stack, member]

/-- No event of a regular instruction has a truth type. -/
theorem type?_event (regular : Regular seen instr) (after : State) (ty : CType)
    (typed : (instr.event after).type? = some ty) : ty ≠ .bool := by
  cases instr with
  | newInput | load | deref | compare =>
    cases typed
    exact regular.2.1
  | unary | binary =>
    cases typed
    exact regular.2
  | store | write | dropOperands | pointer | branch => cases typed

/-- One step keeps the machine on the driving run. -/
theorem follows_step (follows : Follows machine own seen)
    (unwrapped : machine.Unwrapped (instr.event seenNext)) (regular : Regular seen instr)
    (stepped : seen.step own instr = some seenNext)
    (plain : PlainPointer machine (instr.event seenNext))
    (ran : machine.step (instr.event seenNext) = .ok next) :
    Follows next.machine own seenNext where
  tracks := by
    exact follows.tracks.step (fun _ notBool ↦ notBool) unwrapped (follows.honest regular stepped)
      (type?_event regular seenNext) ran
  inputs := (inputs_step ran).trans follows.inputs
  settled := settled_step follows.settled ran
  mirrors := by
    obtain ⟨same, again, mirrors⟩ :=
      mirrors_step follows follows.mirrors rfl unwrapped regular stepped plain ran
    rw [stepped] at again
    cases again
    exact mirrors
  scalar := scalar_step regular follows.scalar stepped

/-! ## Runs -/

/-- What the machine says at the end about the run on other inputs. -/
structure Predicts (final : Machine) (seen : State) (inputs : List Value) (state : State) :
    Prop where
  /-- A byte under a binding is that of its expression on the inputs. -/
  covered : ∀ start e byte, final.memory.cells.get? start = some e → Spans start e byte.toNat →
    state.bytes byte = byteAt (e.evaluate inputs) (byte.toNat - start.toNat)
  /-- Every other byte is the same on both runs. -/
  uncovered : ∀ byte,
    (∀ start e, final.memory.cells.get? start = some e → ¬Spans start e byte.toNat) →
      state.bytes byte = seen.bytes byte
  stack : final.awaitingInput = false → state.stack = final.stack.map (·.on inputs)
  /-- A program that asks for no input does the same on all. -/
  unasked : final.awaitingInput = true → state = seen
  directions :
    Branches inputs final.record.path.constraints seen.directions state.directions
  sameWay : state.directions = seen.directions ↔
    ∀ constraint ∈ final.record.path.constraints,
      (constraint.condition.evaluate inputs != 0) = constraint.taken

theorem Mirrors.predicts {final : Machine} (layout : Layout final.memory.cells)
    (mirrors : Mirrors final seen inputs state) : Predicts final seen inputs state where
  covered start e byte found spans := by
    have inside : byte.toNat - start.toNat < e.bytes := by
      unfold Spans at spans
      omega
    let origin := e.origin (byte.toNat - start.toNat)
    calc state.bytes byte
        = Cells.foretold final.memory.cells inputs seen.bytes byte := mirrors.bytes byte
      _ = byteAt (origin.root.evaluate inputs) origin.index :=
          Cells.foretold_of_origin? (layout.origin?_of_spans found spans) inputs seen.bytes
      _ = byteAt (e.evaluate inputs) (byte.toNat - start.toNat) :=
          (Expr.byteAt_evaluate_eq_root inputs e inside).symm
  uncovered byte none := by
    rw [mirrors.bytes]
    exact Cells.foretold_of_uncovered ((Layout.origin?_eq_none_iff ..).mpr none) inputs seen.bytes
  stack := mirrors.stack
  unasked waiting := (mirrors.waiting waiting).1
  directions := mirrors.directions
  sameWay := mirrors.directions.eq_iff

/-- The machine stays a mirror along the driving run, and the run on other inputs goes as far. -/
theorem mirrors_run {program : List Instr} {final : Machine} {last : State}
    (follows : Follows machine own seen) (mirrors : Mirrors machine seen inputs state)
    (long : inputs.length = own.length) (driven : seen.run own program = some last)
    (unwrapped : machine.Along Unwrapped (seen.events own program))
    (regular : RegularRun own seen program)
    (plain : machine.Along PlainPointer (seen.events own program))
    (ran : machine.run (seen.events own program) = .ok final) :
    Layout final.memory.cells ∧ ∃ stateLast, state.run inputs program = some stateLast ∧
      Mirrors final last inputs stateLast := by
  induction program generalizing machine seen state with
  | nil =>
    cases driven
    cases ran
    exact ⟨follows.tracks.layout, state, rfl, mirrors⟩
  | cons instr rest ih =>
    obtain ⟨seenNext, stepped, driven⟩ := Option.bind_eq_some_iff.mp driven
    rw [State.events, stepped] at unwrapped plain ran
    obtain ⟨next, first, ran⟩ := bind_eq_ok.mp ran
    obtain ⟨stateNext, stepsToo, mirrorsNext⟩ :=
      mirrors_step follows mirrors long unwrapped.1 regular.1 stepped plain.1 first
    have followsNext := follows_step follows unwrapped.1 regular.1 stepped plain.1 first
    obtain ⟨layout, stateLast, runs, final⟩ :=
      ih followsNext mirrorsNext driven (unwrapped.2 next first) (regular.2 seenNext stepped)
        (plain.2 next first) ran
    exact ⟨layout, stateLast, by rw [State.run, stepsToo]; exact runs, final⟩

/-- The machine is told of no more new inputs than the program has. -/
theorem length_askedTypes_events (state : State) (inputs : List Value) (program : List Instr) :
    (askedTypes (state.events inputs program)).length ≤ program.countP Instr.isInput := by
  induction program generalizing state with
  | nil => exact Nat.le_refl 0
  | cons instr rest ih =>
    rw [State.events, List.countP_cons]
    split
    · next next stepped =>
      have later := ih next
      rw [askedTypes_cons, List.length_append]
      cases instr <;> simp [Instr.event, Event.asked?, Instr.isInput] <;> omega
    · exact Nat.zero_le _

/-- The symbolic execution of a regular straight-line program predicts its run on all other
inputs, as long as the program asks for no more inputs than there are numbers. -/
theorem run_predicts {policy : PointerPolicy} {bytes : Bytes} {program : List Instr}
    {last : State} {final : Machine} (narrow : program.countP Instr.isInput ≤ 2 ^ 32)
    (long : inputs.length = own.length)
    (driven : (State.start bytes).run own program = some last)
    (regular : RegularRun own (.start bytes) program)
    (plain : (Machine.start policy own).Along PlainPointer
      ((State.start bytes).events own program))
    (ran : (Machine.start policy own).run ((State.start bytes).events own program) = .ok final) :
    ∃ state, (State.start bytes).run inputs program = some state ∧
      Predicts final last inputs state := by
  have asked := Nat.le_trans (length_askedTypes_events (.start bytes) own program) narrow
  have unwrapped : (Machine.start policy own).Along Unwrapped
      ((State.start bytes).events own program) :=
    along_unwrapped (Nat.le_trans (Nat.le_of_eq (Nat.zero_add _)) asked)
  obtain ⟨layout, state, runs, mirrors⟩ :=
    mirrors_run (follows_start policy own bytes) (mirrors_start policy own inputs bytes) long
      driven unwrapped regular plain ran
  exact ⟨state, runs, mirrors.predicts layout⟩

/-- Overlapping inputs, their product stored across both and read back through a pointer. -/
def productProgram : List Instr :=
  [.newInput .int 16, .newInput .short 18, .load 1 16 .int, .load 2 18 .short,
    .binary 3 .mul .int, .store 4 17, .load 5 64 .ulong, .deref 6 16 .int, .load 7 20 .int,
    .compare 8 .sgt .int, .branch 9 4, .load 10 18 .ushort]

theorem run_predicts_product :
    ∃ last final state,
      (State.start fun _ ↦ 1).run [300, 7] productProgram = some last ∧
      (Machine.start .forget [300, 7]).run
        ((State.start fun _ ↦ 1).events [300, 7] productProgram) = .ok final ∧
      productProgram.countP Instr.isInput ≤ 2 ^ 32 ∧
      (State.start fun _ ↦ 1).run [5, 40000] productProgram = some state ∧
      Predicts final last [5, 40000] state := by
  have narrow : productProgram.countP Instr.isInput ≤ 2 ^ 32 := by decide
  have regular : RegularRun [300, 7] (State.start fun _ ↦ 1) productProgram := by
    decide +kernel
  have plain : (Machine.start .forget [300, 7]).Along PlainPointer
      ((State.start fun _ ↦ 1).events [300, 7] productProgram) := by
    decide +kernel
  have ends : ((State.start fun _ ↦ 1).run [300, 7] productProgram).isSome = true := by
    decide +kernel
  have accepted : ((Machine.start .forget [300, 7]).run
      ((State.start fun _ ↦ 1).events [300, 7] productProgram)).toOption.isSome = true := by
    decide +kernel
  obtain ⟨last, driven⟩ := Option.isSome_iff_exists.mp ends
  cases ran : (Machine.start .forget [300, 7]).run
      ((State.start fun _ ↦ 1).events [300, 7] productProgram) with
  | error fault =>
    rw [ran] at accepted
    cases accepted
  | ok final =>
    have same : ([5, 40000] : List Value).length = ([300, 7] : List Value).length := rfl
    obtain ⟨state, runs, predicts⟩ := run_predicts narrow same driven regular plain ran
    exact ⟨last, final, state, driven, rfl, narrow, runs, predicts⟩

/-! ## More inputs than numbers -/

section Repeated

variable {ty : CType} {address : Address}

/-- The state after an input was stored. -/
def State.given (state : State) (ty : CType) (address : Address) (entry : Value) : State :=
  { state with
    bytes := storeBytes state.bytes address ty.size (ty.normalize entry)
    consumed := state.consumed + 1 }

theorem State.step_newInput (ty : CType) (address : Address) {entry : Value}
    (given : inputs[state.consumed]? = some entry) :
    state.step inputs (.newInput ty address) = some (state.given ty address entry) := by
  rw [State.step, given]
  rfl

/-- Of inputs that are stored one over the other the last one stays. -/
theorem State.run_replicate_newInput (ty : CType) (address : Address) {count last : Nat}
    (place : state.consumed + count = last) {entry : Value}
    (given : inputs[last]? = some entry) :
    ∃ before : State, state.run inputs (.replicate (count + 1) (.newInput ty address)) =
      some (before.given ty address entry) := by
  induction count generalizing state with
  | zero =>
    subst place
    refine ⟨state, ?_⟩
    rw [List.replicate_one, State.run, State.step_newInput ty address given]
    rfl
  | succ count ih =>
    have below := (List.getElem?_eq_some_iff.mp given).1
    have first := State.step_newInput ty address
      (List.getElem?_eq_getElem (show state.consumed < inputs.length by omega))
    rw [List.replicate_succ, State.run, first]
    exact ih ((Nat.add_right_comm ..).trans place)

theorem State.events_replicate_newInput (ty : CType) (address : Address) {count : Nat}
    (enough : state.consumed + count ≤ inputs.length) :
    state.events inputs (.replicate count (.newInput ty address)) =
      .replicate count (.newInput ty address) := by
  induction count generalizing state with
  | zero => rfl
  | succ count ih =>
    have first := State.step_newInput ty address
      (List.getElem?_eq_getElem (show state.consumed < inputs.length by omega))
    rw [List.replicate_succ, State.events, first, List.replicate_succ]
    exact congrArg _ (ih (Nat.le_trans (Nat.le_of_eq (Nat.add_right_comm ..)) enough))

theorem regularRun_replicate_newInput (scalar : ty ≠ .struct) (notBool : ty ≠ .bool)
    (fits : FitsAt address ty.size) (empty : state.stack = []) (count : Nat) :
    RegularRun inputs state (.replicate count (.newInput ty address)) := by
  induction count generalizing state with
  | zero => trivial
  | succ count ih =>
    refine ⟨⟨scalar, notBool, fits, fun _ ↦ empty⟩, fun next stepped ↦ ih ?_⟩
    simp only [State.step] at stepped
    split at stepped
    · cases stepped
      exact empty
    · contradiction

end Repeated

/-- The input after the last number is number zero again.  The expression bound for it evaluates to
the first of the inputs, the program stores the last one. -/
theorem not_run_predicts_wrapped :
    ¬∀ (policy : PointerPolicy) (bytes : Bytes) (program : List Instr) (own inputs : List Value)
      (last : State) (final : Machine), inputs.length = own.length →
        (State.start bytes).run own program = some last → RegularRun own (.start bytes) program →
        (Machine.start policy own).Along PlainPointer ((State.start bytes).events own program) →
        (Machine.start policy own).run ((State.start bytes).events own program) = .ok final →
          ∃ state, (State.start bytes).run inputs program = some state ∧
            Predicts final last inputs state := by
  intro all
  let start := State.start fun _ ↦ 0
  have place : start.consumed + 2 ^ 32 = 2 ^ 32 := Nat.zero_add _
  have enough : start.consumed + (2 ^ 32 + 1) ≤ (lastDiffers (2 ^ 32)).length :=
    Nat.le_of_eq ((Nat.zero_add _).trans (length_lastDiffers _).symm)
  obtain ⟨before, driven⟩ :=
    State.run_replicate_newInput .int 16 place (getElem?_lastDiffers (2 ^ 32))
  have told := State.events_replicate_newInput .int 16 enough
  obtain ⟨vars, ran⟩ := run_lastDiffers .forget (2 ^ 32)
  rw [← told] at ran
  -- the prediction fails on the inputs that drive the machine already
  obtain ⟨state, runs, predicts⟩ := all .forget _ _ (lastDiffers (2 ^ 32)) (lastDiffers (2 ^ 32))
    _ _ rfl driven (regularRun_replicate_newInput (by decide) (by decide) fitsAt_int rfl _)
    (told.symm ▸ along_replicate (fun _ ↦ trivial) _) ran
  have byte := predicts.covered 16 _ 16 (Memory.get?_only ..) (by decide)
  rw [← Option.some.inj (driven.symm.trans runs),
    Expr.evaluate_mkInput (getElem?_lastDiffers_of_lt (by decide))] at byte
  have stored : (before.given .int 16 1).bytes 16 = byteAt (CType.int.normalize 1) 0 := by
    simp only [State.given, storeBytes]
    exact if_pos (by decide)
  rw [stored] at byte
  exact absurd byte (by decide)

end Concolic.Straight
