import Concolic.Proofs.Machine.Upkeep
import Concolic.Proofs.Memory.Freshness

/-!
# The concrete skeleton of a run

What a machine does with types, sizes and values does not depend on what it knows about inputs.
The skeleton of a machine forgets the expressions on its stack, its memory and its constraints; it
steps on its own, from the events alone, and forgetting commutes with every step.  Runs under
different pointer policies build different expressions, and agree in their skeletons, in the
answers to new inputs and in the fault that ends them.
-/

namespace Concolic

/-- What is known of an operand without its expression. -/
structure Slot where
  ty : CType
  bytes : Nat
  value : Value
deriving DecidableEq, Repr

def Slot.of (ty : CType) (value : Value) : Slot :=
  ⟨ty, (TypedValue.of ty value).bytes, ty.normalize value⟩

def Operand.slot (operand : Operand) : Slot :=
  ⟨operand.ty, operand.bytes, operand.value⟩

structure Skeleton where
  stack : List Slot
  scopes : List Scope
  globals : WordMap 64 (BitVec 64)
  inputs : List Value
  vars : WordMap 32 CType
  branches : List BranchId
  inputCount : Nat
  awaitingInput : Bool
  pendingReturn : Bool
deriving DecidableEq

namespace Skeleton

variable (skeleton : Skeleton)

def depth : Nat :=
  skeleton.scopes.length

def push (slot : Slot) : Skeleton :=
  { skeleton with stack := slot :: skeleton.stack }

def pop (id : InstructionId) : Except Fault Skeleton :=
  match skeleton.stack with
  | [] => .error (.stackUnderflow id)
  | _ :: rest => .ok { skeleton with stack := rest }

def clear : Skeleton :=
  { skeleton with stack := [], pendingReturn := false }

def enter (branch : BranchId) : Skeleton :=
  { skeleton with branches := skeleton.branches ++ [branch] }

/-- Two operands are replaced by one. -/
def onTwo (id : InstructionId) (slot : Slot) : Except Fault Skeleton := do
  let below ← skeleton.pop id
  let popped ← below.pop id
  return popped.push slot

/-- What an event does once an input has been asked for. -/
def activeStep : Event → Except Fault Skeleton
  | .load _ _ ty value =>
    .ok ((if skeleton.pendingReturn then skeleton.clear else skeleton).push (.of ty value))
  | .deref id _ ty value | .unary id _ ty value => do
    let popped ← skeleton.pop id
    return popped.push (.of ty value)
  | .store id _ => skeleton.pop id
  | .write id _ => do
    let below ← skeleton.pop id
    below.pop id
  | .dropOperands _ => .ok skeleton.clear
  | .binary id _ ty value | .compare id _ ty value | .untracked id ty value =>
    skeleton.onTwo id (.of ty value)
  | .pointer id op _ value => skeleton.onTwo id (.of op.resultType value)
  | .takeResult id ty value =>
    if skeleton.pendingReturn then
      if skeleton.stack.length = 1 then .ok { skeleton with pendingReturn := false }
      else .error (.returnValueLost id)
    else .ok { skeleton with stack := [.of ty value] }
  | _ => .ok skeleton

/-- One step, from the event alone. -/
def next (event : Event) : Except Fault Skeleton :=
  match event with
  | .newInput ty _ =>
    if ty.isStruct then .error .structInput
    else
      match skeleton.inputs[skeleton.inputCount]? with
      | none => .error (.inputsExhausted skeleton.inputCount skeleton.inputs.length)
      | some _ =>
        .ok { skeleton with
          vars := skeleton.vars.insert (.ofNat 32 skeleton.inputCount) ty
          inputCount := skeleton.inputCount + 1
          awaitingInput := false }
  | .alloc _ address size => .ok { skeleton with globals := skeleton.globals.insert address size }
  | .branch id branch _ =>
    if skeleton.awaitingInput then .ok (skeleton.enter branch)
    else if skeleton.stack.length = 1 then .ok { skeleton.enter branch with stack := [] }
    else .error (.branchPending id branch)
  | .call id function =>
    .ok { skeleton.clear.enter Machine.callBranch with scopes := ⟨function, id⟩ :: skeleton.scopes }
  | .ret id =>
    match skeleton.scopes with
    | [] => .error (.returnWithoutCall id)
    | _ :: scopes =>
      let left := { skeleton.enter Machine.returnBranch with scopes }
      if skeleton.awaitingInput then .ok left
      else if skeleton.stack.length ≤ 1 then
        .ok { left with pendingReturn := skeleton.stack.length = 1 }
      else .error (.returnPending id skeleton.stack.length)
  | event => if skeleton.awaitingInput then .ok skeleton else skeleton.activeStep event

/-- The value that an event is answered with. -/
def answer : Event → Option Value
  | .newInput ty _ => skeleton.inputs[skeleton.inputCount]?.map ty.normalize
  | _ => none

end Skeleton

/-- The result of the event, if it is one of an operator, is no aggregate. -/
def Event.HasScalarResult : Event → Prop
  | .unary _ _ ty _ | .binary _ _ ty _ | .compare _ _ ty _ => ty ≠ .struct
  | _ => True

instance : (event : Event) → Decidable event.HasScalarResult
  | .unary .. | .binary .. | .compare .. => inferInstanceAs (Decidable (_ ≠ _))
  | .newInput .. | .alloc .. | .load .. | .deref .. | .store .. | .write .. | .dropOperands ..
  | .pointer .. | .untracked .. | .branch .. | .call .. | .ret .. | .takeResult .. =>
    .isTrue trivial

def Machine.skeleton (machine : Machine) : Skeleton where
  stack := machine.stack.map Operand.slot
  scopes := machine.scopes
  globals := machine.globals
  inputs := machine.record.inputs
  vars := machine.record.vars
  branches := machine.record.path.branches
  inputCount := machine.inputCount
  awaitingInput := machine.awaitingInput
  pendingReturn := machine.pendingReturn

/-- The skeleton after a step, and its answer. -/
def Step.outline (step : Step) : Skeleton × Option Value :=
  (step.machine.skeleton, step.result)

namespace Machine

/-- What an observer sees who knows nothing of expressions: the skeleton after each event and the
answer to it, up to the first fault. -/
def observe (machine : Machine) : List Event → List (Except Fault (Skeleton × Option Value))
  | [] => []
  | event :: rest =>
    match machine.step event with
    | .error fault => [.error fault]
    | .ok step => .ok step.outline :: observe step.machine rest

/-! ## Converted values -/

/-- Operands are those that evaluation produces, with converted values. -/
def conversion : Invariant where
  asked _ := True
  cell _ := Expr.IsConverted
  operand _ := Operand.Formed Expr.IsConverted
  constraint _ _ := True

theorem conversion_lawful : conversion.Lawful fun _ ↦ True where
  read _ := {
    cut := fun _ _ _ _ converted _ inside ↦ converted.cut inside
    convert := fun e ty _ _ _ converted ↦ by
      rcases Memory.convert_cases e ty with ⟨-, same⟩ | cast
      · rw [same]
        exact converted
      · rw [cast]
        exact ty.normalize_normalize _
    assemble := fun _ _ _ _ _ normal _ _ ↦ normal }
  formed _ _ formed := formed

section Operators

variable {ty : CType} {value : Value} (scalar : ty ≠ .struct)

/-- An operand that an operator gives. -/
structure Gives (ty : CType) (value : Value) (operand : Operand) : Prop where
  formed : operand.Formed Expr.IsConverted
  slot : operand.slot = .of ty value

theorem gives_concrete (ty : CType) (value : Value) : Gives ty value (.concrete (.of ty value)) :=
  ⟨formed_concrete _ ty value, rfl⟩

include scalar

theorem gives_symbolic {e : Expr} (flat : e.IsFlat) (type : e.ty = ty) (size : e.bytes = ty.size)
    (recorded : e.value = ty.normalize value) : Gives ty value (.symbolic e) where
  formed := by
    refine .scalar flat (type ▸ scalar) (type.symm ▸ size) ?_
    rw [Expr.IsConverted, type, recorded, CType.normalize_normalize]
  slot := by
    simp only [Operand.slot, Operand.ty, Operand.bytes, Operand.value, type, size, recorded,
      Slot.of, TypedValue.bytes_of scalar]

theorem gives_applyUnary (op : UnaryOp) (operand : Operand) :
    Gives ty value (applyUnary op operand ty value) := by
  cases operand with
  | concrete typed => exact gives_concrete ty value
  | symbolic e => exact gives_symbolic scalar trivial rfl rfl rfl

variable (lhs rhs : Operand)

theorem gives_applyBinary (op : BinaryOp) : Gives ty value (applyBinary op lhs rhs ty value) := by
  unfold applyBinary
  split
  · exact gives_symbolic scalar trivial rfl rfl rfl
  · exact gives_concrete ty value

theorem gives_applyCompare (op : CompareOp) :
    Gives ty value (applyCompare op lhs rhs ty value) := by
  unfold applyCompare
  split
  · exact gives_symbolic scalar trivial rfl rfl rfl
  · exact gives_concrete ty value

omit scalar in
theorem gives_applyPointer (op : PointerOp) (size : BitVec 64) :
    Gives op.resultType value (applyPointer op lhs rhs size value) := by
  unfold applyPointer
  split
  · exact gives_symbolic op.resultType_ne_struct trivial rfl rfl rfl
  · exact gives_concrete _ value

end Operators

/-! ## What a read gives -/

/-- Whatever is bound, a read gives an operand of the observed type, size and value. -/
theorem slot_loaded {memory : Memory} (layout : Layout memory.cells)
    (converted : AllCells Expr.IsConverted memory.cells) (address : Address) {ty : CType}
    {value : Value} (fits : SizeFits ty value) :
    (memory.loaded address (.of ty value)).slot = .of ty value := by
  let observed := TypedValue.of ty value
  have narrow : observed.bytes < 2 ^ 32 := fits.bytes_lt
  have fit := Memory.partsFit_partsIn layout.ranges address narrow
  by_cases aggregate : ty = .struct
  · subst aggregate
    rw [Memory.loaded, if_pos (by rfl)]
    split
    · rfl
    · rw [Memory.combine_struct rfl, Memory.mkAssemble_eq fit rfl]
      exact congrArg (Slot.mk .struct · value) (Nat.mod_eq_of_lt narrow)
  · have all (part : BitVec 32 × Expr) (member : part ∈ memory.freshParts address observed) :
        part.2.IsConverted ∧ Memory.isFresh observed.value part = true := by
      obtain ⟨present, fresh⟩ := List.mem_filter.mp member
      exact ⟨Memory.all_partsIn layout (conversion_lawful.read ⟨[], .empty, 0⟩).cut converted
        present, fresh⟩
    rw [Memory.loaded_eq_combine aggregate]
    rcases Memory.combine_spec aggregate (TypedValue.normalize_of ty value) (fit.filter _)
      (fun part member ↦ (all part member).1) (fun part member ↦ (all part member).2) with
      ⟨-, plain⟩ | ⟨-, e, symbolic, combined⟩
    · exact congrArg Operand.slot plain
    · refine (congrArg Operand.slot symbolic).trans ?_
      simp only [Operand.slot, Operand.ty, Operand.bytes, Operand.value, combined.ty,
        combined.bytes, combined.value]
      rfl

section Commutes

variable {machine : Machine} {id : InstructionId} {address : Address} {ty : CType} {value : Value}

theorem readReporting_slot (upholds : machine.Upholds conversion) (address : Address)
    (fits : SizeFits ty value) :
    ∃ reading, machine.memory.readReporting address ty value = .ok reading ∧
      reading.operand.slot = .of ty value := by
  obtain ⟨reading, ran, operand⟩ := Memory.readReporting_spec upholds.layout.ranges
    upholds.layout.shallow address ty value
  exact ⟨reading, ran, operand ▸ slot_loaded upholds.layout upholds.cells address fits⟩

/-- Both policies read an operand of the observed type, size and value. -/
theorem policy_read_slot (upholds : machine.Upholds conversion) (address : Address)
    (fits : SizeFits ty value) :
    ∃ reading, machine.policy.read machine.memory address ty value = .ok reading ∧
      reading.operand.slot = .of ty value := by
  cases machine.policy with
  | forget => exact ⟨_, rfl, rfl⟩
  | follow => exact readReporting_slot upholds address fits

theorem store_succeeds (upholds : machine.Upholds conversion) {operand : Operand}
    (member : operand ∈ machine.stack) (fits : FitsAt address operand.bytes) :
    ∃ memory, machine.memory.store address operand = .ok memory := by
  obtain ⟨memory, ran, -⟩ := Memory.store_spec upholds.layout
    (conversion_lawful.read machine.asked).cut (upholds.stack operand member) fits
  exact ⟨memory, ran⟩

/-- Most events do nothing before the first input, to the skeleton either. -/
theorem outline_active {active : Except Fault Step} {next : Except Fault Skeleton}
    (agree : machine.awaitingInput = false → Step.outline <$> active = (·, none) <$> next) :
    Step.outline <$> (if machine.awaitingInput then .ok { machine } else active) =
      (·, none) <$> (if machine.awaitingInput then .ok machine.skeleton else next) := by
  cases waiting : machine.awaitingInput with
  | true => rfl
  | false => exact agree waiting

theorem outline_newInput (upholds : machine.Upholds conversion) (fits : FitsAt address ty.size) :
    Step.outline <$> machine.newInput ty address =
      (·, machine.skeleton.answer (.newInput ty address)) <$>
        machine.skeleton.next (.newInput ty address) := by
  unfold Machine.newInput Skeleton.next Skeleton.answer
  simp only [skeleton]
  by_cases aggregate : ty.isStruct = true
  · rw [if_pos aggregate, if_pos aggregate]
    rfl
  · rw [if_neg aggregate, if_neg aggregate]
    cases given : machine.record.inputs[machine.inputCount]? with
    | none => rfl
    | some entry =>
      have scalar : ty ≠ .struct := (CType.isStruct_eq_false_iff ty).mp (by simpa using aggregate)
      let e := Expr.mkInput (.ofNat 32 machine.inputCount) ty (ty.normalize entry)
      have formed : Operand.Formed Expr.IsConverted (.symbolic e) :=
        .scalar trivial scalar rfl (ty.normalize_normalize _)
      obtain ⟨memory, stored, -⟩ := Memory.store_spec upholds.layout
        (conversion_lawful.read machine.asked).cut formed fits
      have wrote : machine.memory.write address ty e = .ok memory :=
        (Memory.write_eq_store machine.memory rfl).trans stored
      simp only [wrote, e]
      rfl

theorem outline_alloc (upholds : machine.Upholds conversion) (size : BitVec 64) :
    Step.outline <$> machine.alloc id address size =
      (·, none) <$> machine.skeleton.next (.alloc id address size) := by
  obtain ⟨memory, cleared, -⟩ := Memory.concretize_spec upholds.layout address size.toNat
  have ran : machine.memory.concretize address size.toNat = .ok memory := cleared
  simp only [Machine.alloc, ran]
  rfl

theorem outline_load (upholds : machine.Upholds conversion) (fits : SizeFits ty value) :
    Step.outline <$> machine.load id address ty value =
      (·, none) <$> machine.skeleton.next (.load id address ty value) := by
  refine outline_active fun _ ↦ ?_
  obtain ⟨reading, read, slot⟩ := readReporting_slot upholds address fits
  simp only [read, ok_bind, Skeleton.activeStep, ← slot]
  obtain ⟨policy, stack, scopes, globals, record, inputCount, awaiting, pending, losses⟩ := machine
  cases pending <;> rfl

theorem outline_deref (upholds : machine.Upholds conversion) (fits : SizeFits ty value) :
    Step.outline <$> machine.deref id address ty value =
      (·, none) <$> machine.skeleton.next (.deref id address ty value) := by
  refine outline_active fun _ ↦ ?_
  obtain ⟨reading, read, slot⟩ := readReporting_slot upholds address fits
  obtain ⟨other, policyRead, otherSlot⟩ := policy_read_slot upholds address fits
  show _ = (·, none) <$> (machine.skeleton.pop id >>= fun popped ↦
    pure (popped.push (.of ty value)))
  simp only [Skeleton.pop, Machine.pop, skeleton]
  cases stack : machine.stack with
  | nil => rfl
  | cons pointer rest =>
    cases pointer with
    | concrete typed =>
      rw [← slot]
      simp only [read, Operand.isSymbolic]
      rfl
    | symbolic e =>
      rw [← otherSlot]
      simp only [policyRead, Operand.isSymbolic]
      rfl

theorem outline_store (upholds : machine.Upholds conversion)
    (fits : machine.OnTop fun operand ↦ FitsAt address operand.bytes) :
    Step.outline <$> machine.store id address =
      (·, none) <$> machine.skeleton.next (.store id address) := by
  refine outline_active fun _ ↦ ?_
  show _ = (·, none) <$> machine.skeleton.pop id
  simp only [Skeleton.pop, Machine.pop, skeleton]
  cases stack : machine.stack with
  | nil => rfl
  | cons operand rest =>
    obtain ⟨memory, stored⟩ :=
      store_succeeds upholds (by simp [stack]) (fits operand rest stack)
    simp only [ok_bind, stored]
    rfl

theorem outline_write (upholds : machine.Upholds conversion)
    (fits : machine.OnTop fun operand ↦ FitsAt address operand.bytes) :
    Step.outline <$> machine.write id address =
      (·, none) <$> machine.skeleton.next (.write id address) := by
  refine outline_active fun _ ↦ ?_
  show _ = (·, none) <$> (machine.skeleton.pop id >>= (·.pop id))
  simp only [Skeleton.pop, Machine.pop, skeleton]
  cases stack : machine.stack with
  | nil => rfl
  | cons operand below =>
    cases below with
    | nil => rfl
    | cons pointer rest =>
      obtain ⟨memory, stored⟩ :=
        store_succeeds upholds (by simp [stack]) (fits operand _ stack)
      simp only [ok_bind, stored]
      cases pointer <;> rfl

theorem outline_unary {op : UnaryOp} (scalar : ty ≠ .struct) :
    Step.outline <$> machine.unary id op ty value =
      (·, none) <$> machine.skeleton.next (.unary id op ty value) := by
  refine outline_active fun _ ↦ ?_
  show _ = (·, none) <$> (machine.skeleton.pop id >>= fun popped ↦
    pure (popped.push (.of ty value)))
  simp only [Skeleton.pop, Machine.pop, skeleton]
  cases stack : machine.stack with
  | nil => rfl
  | cons operand rest =>
    rw [← (gives_applyUnary scalar op operand : Gives ty value _).slot]
    rfl

theorem outline_onTwo {combine : Operand → Operand → Operand} {slot : Slot}
    (gives : ∀ lhs rhs, (combine lhs rhs).slot = slot) :
    Step.outline <$> machine.onTwo id combine =
      (·, none) <$> (if machine.awaitingInput then .ok machine.skeleton
        else machine.skeleton.onTwo id slot) := by
  refine outline_active fun _ ↦ ?_
  simp only [Skeleton.onTwo, Skeleton.pop, Machine.pop, skeleton]
  cases stack : machine.stack with
  | nil => rfl
  | cons rhs below =>
    cases below with
    | nil => rfl
    | cons lhs rest =>
      rw [← gives lhs rhs]
      rfl

theorem outline_untracked :
    Step.outline <$> machine.untracked id ty value =
      (·, none) <$> machine.skeleton.next (.untracked id ty value) := by
  refine outline_active fun _ ↦ ?_
  show _ = (·, none) <$> machine.skeleton.onTwo id (.of ty value)
  simp only [Skeleton.onTwo, Skeleton.pop, Machine.pop, skeleton]
  cases stack : machine.stack with
  | nil => rfl
  | cons rhs below => cases below <;> rfl

theorem outline_branch {branch : BranchId} {taken : Bool} :
    Step.outline <$> machine.branch id branch taken =
      (·, none) <$> machine.skeleton.next (.branch id branch taken) := by
  obtain ⟨policy, stack, scopes, globals, record, inputCount, awaiting, pending, losses⟩ := machine
  cases awaiting with
  | true => rfl
  | false =>
    match stack with
    | [] | [.concrete _] | [.symbolic _] | .concrete _ :: _ :: _ | .symbolic _ :: _ :: _ => rfl

theorem outline_ret :
    Step.outline <$> machine.ret id = (·, none) <$> machine.skeleton.next (.ret id) := by
  simp only [Machine.ret, Skeleton.next, skeleton, List.length_map]
  cases machine.scopes with
  | nil => rfl
  | cons scope scopes =>
    by_cases waiting : machine.awaitingInput = true
    · simp only [if_pos waiting]
      rfl
    · by_cases short : machine.stack.length ≤ 1
      · simp only [if_neg waiting, if_pos short]
        rfl
      · simp only [if_neg waiting, if_neg short]
        rfl

theorem outline_takeResult :
    Step.outline <$> machine.takeResult id ty value =
      (·, none) <$> machine.skeleton.next (.takeResult id ty value) := by
  refine outline_active fun _ ↦ ?_
  obtain ⟨policy, stack, scopes, globals, record, inputCount, awaiting, pending, losses⟩ := machine
  cases pending with
  | true =>
    match stack with
    | [] | [_] | _ :: _ :: _ => rfl
  | false => rfl

/-- Forgetting the expressions commutes with every step. -/
theorem outline_step (upholds : machine.Upholds conversion) {event : Event}
    (bounds : machine.InBounds event) (scalar : event.HasScalarResult) :
    Step.outline <$> machine.step event =
      (·, machine.skeleton.answer event) <$> machine.skeleton.next event := by
  cases event with
  | newInput ty address => exact outline_newInput upholds bounds
  | alloc id address size => exact outline_alloc upholds size
  | load id address ty value => exact outline_load upholds bounds
  | deref id address ty value => exact outline_deref upholds bounds
  | store id address => exact outline_store upholds bounds
  | write id address => exact outline_write upholds bounds
  | dropOperands id => exact outline_active fun _ ↦ rfl
  | unary id op ty value => exact outline_unary scalar
  | binary id op ty value =>
    exact outline_onTwo fun lhs rhs ↦ (gives_applyBinary scalar lhs rhs op).slot
  | compare id op ty value =>
    exact outline_onTwo fun lhs rhs ↦ (gives_applyCompare scalar lhs rhs op).slot
  | pointer id op size value =>
    exact outline_onTwo fun lhs rhs ↦ (gives_applyPointer lhs rhs op size).slot
  | untracked id ty value => exact outline_untracked
  | branch id branch taken => exact outline_branch
  | call id function => rfl
  | ret id => exact outline_ret
  | takeResult id ty value => exact outline_takeResult

theorem sustains_conversion (upholds : machine.Upholds conversion) {event : Event}
    (bounds : machine.InBounds event) (scalar : event.HasScalarResult) :
    machine.Sustains (fun _ ↦ True) conversion event := by
  have grows (asked after : Asked) : conversion.Grows asked after :=
    ⟨fun _ cell ↦ cell, fun _ operand ↦ operand, fun _ _ ↦ trivial⟩
  cases event with
  | newInput ty address =>
    exact ⟨bounds, fun _ _ _ ↦ ⟨trivial, grows _ _, ty.normalize_normalize _⟩⟩
  | load id address ty value | deref id address ty value => exact ⟨trivial, bounds⟩
  | store id address | write id address =>
    intro operand rest stack
    exact upholds.accepts conversion_lawful (upholds.stack operand (by simp [stack]))
      (bounds operand rest stack)
  | unary id op ty value => exact fun operand _ _ ↦ (gives_applyUnary scalar op operand).formed
  | binary id op ty value => exact fun rhs lhs _ _ ↦ (gives_applyBinary scalar lhs rhs op).formed
  | compare id op ty value => exact fun rhs lhs _ _ ↦ (gives_applyCompare scalar lhs rhs op).formed
  | pointer id op size value => exact fun rhs lhs _ _ ↦ (gives_applyPointer lhs rhs op size).formed
  | branch => exact fun _ _ _ ↦ trivial
  | alloc | dropOperands | untracked | call | ret | takeResult => trivial

end Commutes

/-! ## Runs with the same skeleton -/

section Runs

variable {first second : Machine} {events : List Event}

/-- The ranges that an event touches are told by the skeleton. -/
theorem inBounds_congr (same : first.skeleton = second.skeleton) {event : Event}
    (bounds : first.InBounds event) : second.InBounds event := by
  have slots : first.stack.map Operand.slot = second.stack.map Operand.slot :=
    congrArg Skeleton.stack same
  cases event with
  | store id address | write id address =>
    intro operand rest stack
    rw [stack, List.map_cons, List.map_eq_cons_iff] at slots
    obtain ⟨other, below, here, slot, -⟩ := slots
    have bytes : other.bytes = operand.bytes := congrArg Slot.bytes slot
    exact bytes ▸ bounds other below here
  | _ => exact bounds

theorem step_congr (same : first.skeleton = second.skeleton) (mine : first.Upholds conversion)
    (theirs : second.Upholds conversion) {event : Event} (bounds : first.InBounds event)
    (scalar : event.HasScalarResult) :
    Step.outline <$> first.step event = Step.outline <$> second.step event := by
  rw [outline_step mine bounds scalar, outline_step theirs (inBounds_congr same bounds) scalar, same]

/-- Machines with the same skeleton go on to look the same. -/
theorem observe_congr (same : first.skeleton = second.skeleton) (mine : first.Upholds conversion)
    (theirs : second.Upholds conversion) (bounds : first.Along InBounds events)
    (scalar : ∀ event ∈ events, event.HasScalarResult) :
    first.observe events = second.observe events := by
  induction events generalizing first second with
  | nil => rfl
  | cons event rest ih =>
    obtain ⟨scalarHere, scalarLater⟩ := List.forall_mem_cons.mp scalar
    have steps := step_congr same mine theirs bounds.1 scalarHere
    unfold observe
    cases ranFirst : first.step event with
    | error fault =>
      cases ranSecond : second.step event with
      | error other =>
        rw [ranFirst, ranSecond] at steps
        cases steps
        rfl
      | ok step =>
        rw [ranFirst, ranSecond] at steps
        cases steps
    | ok step =>
      cases ranSecond : second.step event with
      | error fault =>
        rw [ranFirst, ranSecond] at steps
        cases steps
      | ok other =>
        rw [ranFirst, ranSecond] at steps
        have outlines : step.outline = other.outline := Except.ok.inj steps
        have kept := mine.step conversion_lawful
          (sustains_conversion mine bounds.1 scalarHere) ranFirst
        have keptToo := theirs.step conversion_lawful
          (sustains_conversion theirs (inBounds_congr same bounds.1) scalarHere) ranSecond
        have later := ih (congrArg Prod.fst outlines) kept keptToo (bounds.2 step ranFirst)
          scalarLater
        exact congrArg₂ List.cons (congrArg Except.ok outlines) later

end Runs

/-- The pointer policy, and with it how much is known symbolically, never shows in the concrete
skeleton of a run: after every event the stack has the same types, sizes and values, the path the
same branches, and so on, new inputs are answered alike, and the run faults at the same event in
the same way or not at all. -/
theorem observe_policy_congr (policy other : PointerPolicy) {inputs : List Value}
    {events : List Event} (bounds : (start policy inputs).Along InBounds events)
    (scalar : ∀ event ∈ events, event.HasScalarResult) :
    (start policy inputs).observe events = (start other inputs).observe events :=
  observe_congr rfl (upholds_start policy inputs trivial) (upholds_start other inputs trivial)
    bounds scalar

/-- A branch on what is loaded through an input, and a second one that finds nothing pending. -/
def throughInputEvents : List Event :=
  [.newInput .ulong 0x1000, .newInput .int 0x2000, .load 1 0x1000 .ulong 0x2000,
    .deref 2 0x2000 .int 7, .branch 3 1 true, .branch 4 2 true]

/-- The two runs record different constraints before they end in the same fault. -/
theorem observe_policy_congr_throughInput :
    (start .follow [0x2000, 7]).Along InBounds throughInputEvents ∧
      (∀ event ∈ throughInputEvents, event.HasScalarResult) ∧
      (∃ first second, (start .follow [0x2000, 7]).run throughInputEvents.dropLast = .ok first ∧
        (start .forget [0x2000, 7]).run throughInputEvents.dropLast = .ok second ∧
        first.record.path.constraints.length = 1 ∧ second.record.path.constraints = []) ∧
      ((start .follow [0x2000, 7]).observe throughInputEvents).getLast? =
        some (.error (.branchPending 4 2)) ∧
      (start .follow [0x2000, 7]).observe throughInputEvents =
        (start .forget [0x2000, 7]).observe throughInputEvents := by
  have bounds : (start .follow [0x2000, 7]).Along InBounds throughInputEvents := by decide +kernel
  have scalar : ∀ event ∈ throughInputEvents, event.HasScalarResult := by decide +kernel
  exact ⟨bounds, scalar, ⟨_, _, rfl, rfl, rfl, rfl⟩, by rfl,
    observe_policy_congr .follow .forget bounds scalar⟩

end Machine

end Concolic
