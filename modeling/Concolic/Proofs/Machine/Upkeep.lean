import Concolic.Proofs.Machine.Inversion
import Concolic.Proofs.Memory.Load

/-!
# Invariants of runs

An invariant says what bindings, operands and recorded constraints are like, in terms of the inputs
that the run has asked for.  An event pushes at most one operand, records at most one constraint or
changes the memory, so that an invariant is kept when what is new satisfies it.  The conditions
that runs are subject to are conditions on each event at the machine that it meets.
-/

namespace Concolic

/-- The bytes and the address behind them are no more than an address can tell. -/
def FitsAt (address : Address) (bytes : Nat) : Prop :=
  address.toNat + bytes < 2 ^ 64

/-- The value of an aggregate is its size in bytes, of 32 bits. -/
def SizeFits (ty : CType) (value : Value) : Prop :=
  ty = .struct → value.toNat < 2 ^ 32

instance (address : Address) (bytes : Nat) : Decidable (FitsAt address bytes) :=
  inferInstanceAs (Decidable (_ < _))

instance (ty : CType) (value : Value) : Decidable (SizeFits ty value) :=
  inferInstanceAs (Decidable (_ → _))

theorem SizeFits.bytes_lt {ty : CType} {value : Value} (fits : SizeFits ty value) :
    (TypedValue.of ty value).bytes < 2 ^ 32 := by
  by_cases aggregate : ty = .struct
  · subst aggregate
    exact fits rfl
  · rw [TypedValue.bytes_of aggregate]
    exact Nat.lt_of_le_of_lt ty.size_le_eight (by decide)

namespace Machine

/-! ## Conditions on the events of a run -/

def OnTop (machine : Machine) (P : Operand → Prop) : Prop :=
  ∀ operand rest, machine.stack = operand :: rest → P operand

/-- The two topmost operands, if there are two, are related; the left one lies below. -/
def OnTopTwo (machine : Machine) (P : Operand → Operand → Prop) : Prop :=
  ∀ rhs lhs rest, machine.stack = rhs :: lhs :: rest → P lhs rhs

/-- A condition holds of every event of a run when it comes. -/
def Along (P : Machine → Event → Prop) (machine : Machine) : List Event → Prop
  | [] => True
  | event :: rest =>
    P machine event ∧ ∀ step, machine.step event = .ok step → Along P step.machine rest

theorem Along.and {P Q : Machine → Event → Prop} {machine : Machine} {events : List Event}
    (first : machine.Along P events) (second : machine.Along Q events) :
    machine.Along (fun machine event ↦ P machine event ∧ Q machine event) events := by
  induction events generalizing machine with
  | nil => trivial
  | cons event rest ih =>
    exact ⟨⟨first.1, second.1⟩, fun step ran ↦ ih (first.2 step ran) (second.2 step ran)⟩

/-- What holds of every event at all machines holds of each when it comes. -/
theorem along_of_forall {P : Machine → Event → Prop} {machine : Machine} {events : List Event}
    (all : ∀ event ∈ events, ∀ machine, P machine event) : machine.Along P events := by
  induction events generalizing machine with
  | nil => trivial
  | cons event rest ih =>
    obtain ⟨here, later⟩ := List.forall_mem_cons.mp all
    exact ⟨here machine, fun _ _ ↦ ih later⟩

/-- No range of addresses that the event touches wraps, and an aggregate that it reads has a size
of 32 bits. -/
def InBounds (machine : Machine) : Event → Prop
  | .newInput ty address => FitsAt address ty.size
  | .load _ _ ty value | .deref _ _ ty value => SizeFits ty value
  | .store _ address | .write _ address =>
    machine.OnTop fun operand ↦ FitsAt address operand.bytes
  | _ => True

instance (machine : Machine) (P : Operand → Prop) [DecidablePred P] :
    Decidable (machine.OnTop P) :=
  match stack : machine.stack with
  | [] => isTrue fun operand rest same ↦ by simp [stack] at same
  | operand :: rest => decidable_of_iff (P operand)
    ⟨fun holds other below same ↦ by
      rw [stack] at same
      cases same
      exact holds, fun all ↦ all operand rest stack⟩

instance (machine : Machine) (P : Operand → Operand → Prop)
    [∀ lhs rhs, Decidable (P lhs rhs)] : Decidable (machine.OnTopTwo P) :=
  match stack : machine.stack with
  | [] | [_] => isTrue fun rhs lhs rest same ↦ by simp [stack] at same
  | rhs :: lhs :: rest => decidable_of_iff (P lhs rhs)
    ⟨fun holds upper lower below same ↦ by
      rw [stack] at same
      cases same
      exact holds, fun all ↦ all rhs lhs rest stack⟩

instance (machine : Machine) : (event : Event) → Decidable (machine.InBounds event)
  | .newInput _ _ => inferInstanceAs (Decidable (FitsAt _ _))
  | .load _ _ _ _ | .deref _ _ _ _ => inferInstanceAs (Decidable (SizeFits _ _))
  | .store _ _ | .write _ _ => inferInstanceAs (Decidable (machine.OnTop _))
  | .alloc _ _ _ | .dropOperands _ | .unary _ _ _ _ | .binary _ _ _ _ | .compare _ _ _ _
  | .pointer _ _ _ _ | .untracked _ _ _ | .branch _ _ _ | .call _ _ | .ret _
  | .takeResult _ _ _ => .isTrue trivial

def decidableAlong (P : Machine → Event → Prop) [∀ machine event, Decidable (P machine event)] :
    (machine : Machine) → (events : List Event) → Decidable (machine.Along P events)
  | _, [] => isTrue trivial
  | machine, event :: rest =>
    match stepped : machine.step event with
    | .error _ => decidable_of_iff (P machine event)
      ⟨fun holds ↦ ⟨holds, fun step other ↦ by simp [stepped] at other⟩, fun along ↦ along.1⟩
    | .ok step =>
      have := decidableAlong P step.machine rest
      decidable_of_iff (P machine event ∧ step.machine.Along P rest)
        ⟨fun along ↦ ⟨along.1, fun other same ↦ by
          rw [stepped] at same
          exact Except.ok.inj same ▸ along.2⟩, fun along ↦ ⟨along.1, along.2 step stepped⟩⟩

instance (P : Machine → Event → Prop) [∀ machine event, Decidable (P machine event)]
    (machine : Machine) (events : List Event) : Decidable (machine.Along P events) :=
  decidableAlong P machine events

end Machine

/-! ## Invariants -/

/-- The inputs of a run, with the types of those it has asked for. -/
structure Asked where
  inputs : List Value
  vars : WordMap 32 CType
  count : Nat

def Asked.next (asked : Asked) (ty : CType) : Asked :=
  { asked with vars := asked.vars.insert (.ofNat 32 asked.count) ty, count := asked.count + 1 }

namespace Asked

variable {asked : Asked} {ty : CType}

/-- Every declared input has been asked for. -/
def Numbered (asked : Asked) : Prop :=
  ∀ id ty, asked.vars.get? id = some ty → id.toNat < asked.count

theorem get?_next (asked : Asked) (ty : CType) :
    (asked.next ty).vars.get? (.ofNat 32 asked.count) = some ty := by
  rw [next, WordMap.get?_insert, if_pos rfl]

/-- The next input takes no number that was given, as long as numbers do not wrap. -/
theorem Numbered.get?_next_of_get? (numbered : asked.Numbered) (narrow : asked.count < 2 ^ 32)
    {id : InputId} {type : CType} (found : asked.vars.get? id = some type) :
    (asked.next ty).vars.get? id = some type := by
  have number : (BitVec.ofNat 32 asked.count).toNat = asked.count := Nat.mod_eq_of_lt narrow
  rw [next, WordMap.get?_insert, if_neg]
  · exact found
  · rintro rfl
    have below := numbered _ type found
    omega

theorem Numbered.next (numbered : asked.Numbered) (narrow : asked.count < 2 ^ 32) :
    (asked.next ty).Numbered := by
  have number : (BitVec.ofNat 32 asked.count).toNat = asked.count := Nat.mod_eq_of_lt narrow
  intro id type found
  rw [Asked.next, WordMap.get?_insert] at found
  show id.toNat < asked.count + 1
  split at found
  · next same =>
    rw [same, number]
    omega
  · have below := numbered id type found
    omega

end Asked

def Machine.asked (machine : Machine) : Asked :=
  ⟨machine.record.inputs, machine.record.vars, machine.inputCount⟩

/-- What a machine and its parts are like. -/
structure Invariant where
  asked : Asked → Prop
  cell : Asked → Expr → Prop
  operand : Asked → Operand → Prop
  constraint : Asked → Constraint → Prop

namespace Invariant

/-- What reading from memory gives satisfies the invariant, for the types that are admissible. -/
structure Lawful (admissible : CType → Prop) (inv : Invariant) : Prop where
  read : ∀ asked, Memory.ReadClosed admissible (inv.cell asked)
  formed : ∀ asked operand, operand.Formed (inv.cell asked) → inv.operand asked operand

/-- What was so before the next input still is. -/
structure Grows (inv : Invariant) (before after : Asked) : Prop where
  cell : ∀ e, inv.cell before e → inv.cell after e
  operand : ∀ operand, inv.operand before operand → inv.operand after operand
  constraint : ∀ constraint, inv.constraint before constraint → inv.constraint after constraint

end Invariant

namespace Machine

structure Upholds (inv : Invariant) (machine : Machine) : Prop where
  layout : Layout machine.record.memory.cells
  asked : inv.asked machine.asked
  cells : AllCells (inv.cell machine.asked) machine.record.memory.cells
  stack : ∀ operand ∈ machine.stack, inv.operand machine.asked operand
  constraints : ∀ constraint ∈ machine.record.path.constraints,
    inv.constraint machine.asked constraint
  idle : machine.awaitingInput = true → machine.stack = []

/-- A store of the operand leaves bindings as the invariant wants them. -/
def Accepts (inv : Invariant) (machine : Machine) (address : Address) (operand : Operand) :
    Prop :=
  ∀ memory, machine.memory.store address operand = .ok memory →
    Layout memory.cells ∧ AllCells (inv.cell machine.asked) memory.cells

/-- What is new after an event satisfies the invariant. -/
def Sustains (admissible : CType → Prop) (inv : Invariant) (machine : Machine) : Event → Prop
  | .newInput ty address =>
    FitsAt address ty.size ∧
      ∀ entry, ty ≠ .struct → machine.record.inputs[machine.inputCount]? = some entry →
        inv.asked (machine.asked.next ty) ∧ inv.Grows machine.asked (machine.asked.next ty) ∧
          inv.cell (machine.asked.next ty)
            (.mkInput (.ofNat 32 machine.inputCount) ty (ty.normalize entry))
  | .load _ _ ty value | .deref _ _ ty value => admissible ty ∧ SizeFits ty value
  | .store _ address | .write _ address => machine.OnTop (machine.Accepts inv address)
  | .unary _ op ty value =>
    machine.OnTop fun operand ↦ inv.operand machine.asked (applyUnary op operand ty value)
  | .binary _ op ty value =>
    machine.OnTopTwo fun lhs rhs ↦ inv.operand machine.asked (applyBinary op lhs rhs ty value)
  | .compare _ op ty value =>
    machine.OnTopTwo fun lhs rhs ↦ inv.operand machine.asked (applyCompare op lhs rhs ty value)
  | .pointer _ op size value =>
    machine.OnTopTwo fun lhs rhs ↦ inv.operand machine.asked (applyPointer op lhs rhs size value)
  | .branch _ _ taken =>
    ∀ e index, machine.stack = [.symbolic e] →
      inv.constraint machine.asked ⟨index, e.condition, taken⟩
  | _ => True

theorem formed_concrete (P : Expr → Prop) (ty : CType) (value : Value) :
    Operand.Formed P (.concrete (.of ty value)) :=
  .concrete (TypedValue.normalize_of ty value)

namespace Upholds

variable {admissible : CType → Prop} {inv : Invariant} {machine after : Machine}

/-- What evaluation produces can be stored where it fits. -/
theorem accepts (lawful : inv.Lawful admissible) (upholds : machine.Upholds inv)
    {address : Address} {operand : Operand} (formed : operand.Formed (inv.cell machine.asked))
    (fits : FitsAt address operand.bytes) : machine.Accepts inv address operand := by
  intro memory stored
  obtain ⟨spec, all⟩ :=
    Memory.stored_of_store upholds.layout (lawful.read _).cut formed fits stored
  exact ⟨spec.layout, all upholds.cells⟩

/-- Changes of the stack and of what is not part of the record. -/
theorem withStack (upholds : machine.Upholds inv) (record : after.record = machine.record)
    (count : after.inputCount = machine.inputCount)
    (stack : ∀ operand ∈ after.stack, inv.operand machine.asked operand)
    (idle : after.awaitingInput = true → after.stack = []) : after.Upholds inv := by
  have asked : after.asked = machine.asked := by rw [Machine.asked, record, count, Machine.asked]
  exact {
    layout := record ▸ upholds.layout
    asked := asked ▸ upholds.asked
    cells := by
      rw [asked, record]
      exact upholds.cells
    stack := asked ▸ stack
    constraints := by
      rw [asked, record]
      exact upholds.constraints
    idle := idle }

/-- Changes of the memory and of the stack. -/
theorem withMemory {memory : Memory} (upholds : machine.Upholds inv)
    (layout : Layout memory.cells) (cells : AllCells (inv.cell machine.asked) memory.cells)
    (record : after.record = { machine.record with memory })
    (count : after.inputCount = machine.inputCount)
    (sub : ∀ operand ∈ after.stack, operand ∈ machine.stack)
    (idle : after.awaitingInput = true → after.stack = []) : after.Upholds inv := by
  have asked : after.asked = machine.asked := by rw [Machine.asked, record, count, Machine.asked]
  exact {
    layout := by
      rw [record]
      exact layout
    asked := asked ▸ upholds.asked
    cells := by
      rw [asked, record]
      exact cells
    stack := fun operand member ↦ asked ▸ upholds.stack operand (sub operand member)
    constraints := by
      rw [asked, record]
      exact upholds.constraints
    idle := idle }

/-- Changes of the path and of the stack. -/
theorem withPath (path : Path) (upholds : machine.Upholds inv)
    (constraints : ∀ constraint ∈ path.constraints,
      constraint ∈ machine.record.path.constraints ∨ inv.constraint machine.asked constraint)
    (record : after.record = { machine.record with path })
    (count : after.inputCount = machine.inputCount)
    (sub : ∀ operand ∈ after.stack, operand ∈ machine.stack)
    (idle : after.awaitingInput = true → after.stack = []) : after.Upholds inv := by
  have asked : after.asked = machine.asked := by rw [Machine.asked, record, count, Machine.asked]
  exact {
    layout := by
      rw [record]
      exact upholds.layout
    asked := asked ▸ upholds.asked
    cells := by
      rw [asked, record]
      exact upholds.cells
    stack := fun operand member ↦ asked ▸ upholds.stack operand (sub operand member)
    constraints := fun constraint member ↦ by
      rw [record] at member
      rw [asked]
      exact (constraints constraint member).elim (upholds.constraints constraint) id
    idle := idle }

/-- Pops some operands and pushes one. -/
theorem replaceTop {operand : Operand} {rest : List Operand} (popped : List Operand)
    (upholds : machine.Upholds inv) (active : machine.awaitingInput = false)
    (stack : machine.stack = popped ++ rest) (fits : inv.operand machine.asked operand)
    (losses : Nat) :
    Upholds inv { machine with stack := operand :: rest, losses } := by
  refine upholds.withStack rfl rfl (fun other member ↦ ?_) fun idle ↦ ?_
  · rcases List.mem_cons.mp member with rfl | below
    · exact fits
    · exact upholds.stack other (by rw [stack]; exact List.mem_append_right _ below)
  · rw [active] at idle
    contradiction

/-- Pops some operands, of which the first has been stored. -/
theorem popStored {rest : List Operand} (popped : List Operand) (upholds : machine.Upholds inv)
    (active : machine.awaitingInput = false) (stack : machine.stack = popped ++ rest)
    {memory : Memory} (layout : Layout memory.cells)
    (cells : AllCells (inv.cell machine.asked) memory.cells) (losses : Nat) :
    Upholds inv ({ machine with stack := rest, losses }.withMemory memory) := by
  refine upholds.withMemory layout cells rfl rfl (fun operand member ↦ ?_) fun idle ↦ ?_
  · rw [stack]
    exact List.mem_append_right _ member
  · rw [show machine.awaitingInput = true from idle] at active
    contradiction

theorem clear (upholds : machine.Upholds inv) : machine.clear.Upholds inv :=
  upholds.withStack rfl rfl (fun _ member ↦ by cases member) fun _ ↦ rfl

section Steps

variable {next : Step} {id : InstructionId} {address : Address} {ty : CType} {value : Value}

/-- What a read gives satisfies the invariant. -/
theorem operand_read (lawful : inv.Lawful admissible) (upholds : machine.Upholds inv)
    (admitted : admissible ty) (fits : SizeFits ty value) {reading : Reading}
    (read : machine.memory.readReporting address ty value = .ok reading) :
    inv.operand machine.asked reading.operand := by
  refine lawful.formed _ _ ?_
  rw [Memory.operand_of_read upholds.layout read]
  exact Memory.formed_loaded (lawful.read _) upholds.layout upholds.cells address
    (TypedValue.normalize_of ty value) (fun _ ↦ admitted) fits.bytes_lt

theorem newInput (lawful : inv.Lawful admissible) (upholds : machine.Upholds inv)
    (sustains : machine.Sustains admissible inv (.newInput ty address))
    (ran : machine.newInput ty address = .ok next) : next.machine.Upholds inv := by
  obtain ⟨fits, sustains⟩ := sustains
  obtain ⟨scalar, entry, memory, given, wrote, result⟩ := newInput_inv ran
  obtain ⟨asked, grows, here⟩ := sustains entry scalar given
  have formed : Operand.Formed (inv.cell (machine.asked.next ty)) (.symbolic
      (.mkInput (.ofNat 32 machine.inputCount) ty (ty.normalize entry))) :=
    .scalar trivial scalar rfl here
  obtain ⟨stored, all⟩ :=
    Memory.stored_of_write upholds.layout (lawful.read _).cut formed fits rfl wrote
  rw [result]
  exact {
    layout := stored.layout
    asked := asked
    cells := all fun start e found ↦ grows.cell e (upholds.cells start e found)
    stack := fun operand member ↦ grows.operand operand (upholds.stack operand member)
    constraints := fun constraint member ↦
      grows.constraint constraint (upholds.constraints constraint member)
    idle := fun idle ↦ by cases idle }

theorem alloc (lawful : inv.Lawful admissible) (upholds : machine.Upholds inv)
    {size : BitVec 64} (ran : machine.alloc id address size = .ok next) :
    next.machine.Upholds inv := by
  obtain ⟨memory, ran, result⟩ := alloc_inv ran
  obtain ⟨expected, cleared, spec⟩ := Memory.concretize_spec upholds.layout address size.toNat
  have same : memory = expected := Except.ok.inj (ran.symm.trans cleared)
  subst same
  rw [result]
  exact upholds.withMemory spec.layout (spec.all _ (lawful.read _).cut upholds.cells) rfl rfl
    (fun _ member ↦ member) upholds.idle

theorem load (lawful : inv.Lawful admissible) (upholds : machine.Upholds inv)
    (admitted : admissible ty) (fits : SizeFits ty value)
    (ran : machine.load id address ty value = .ok next) : next.machine.Upholds inv := by
  rcases load_inv ran with ⟨-, same⟩ | ⟨active, reading, read, result⟩
  · rw [same]
    exact upholds
  · have new := upholds.operand_read lawful admitted fits read
    rw [result]
    split
    · exact replaceTop [] upholds.clear active rfl new machine.losses
    · exact replaceTop [] upholds active rfl new machine.losses

theorem deref (lawful : inv.Lawful admissible) (upholds : machine.Upholds inv)
    (admitted : admissible ty) (fits : SizeFits ty value)
    (ran : machine.deref id address ty value = .ok next) : next.machine.Upholds inv := by
  rcases deref_inv ran with ⟨-, same⟩ | ⟨active, pointer, rest, reading, stack, read, result⟩
  · rw [same]
    exact upholds
  · have new : inv.operand machine.asked reading.operand := by
      split at read
      · cases policy : machine.policy with
        | forget =>
          rw [policy] at read
          cases read
          exact lawful.formed _ _ (formed_concrete _ ty value)
        | follow =>
          rw [policy] at read
          exact upholds.operand_read lawful admitted fits read
      · exact upholds.operand_read lawful admitted fits read
    rw [result]
    exact replaceTop [pointer] upholds active stack new _

theorem store (upholds : machine.Upholds inv)
    (accepts : machine.OnTop (machine.Accepts inv address))
    (ran : machine.store id address = .ok next) : next.machine.Upholds inv := by
  rcases store_inv ran with ⟨-, same⟩ | ⟨active, operand, rest, memory, stack, wrote, result⟩
  · rw [same]
    exact upholds
  · obtain ⟨layout, cells⟩ := accepts operand rest stack memory wrote
    rw [result]
    exact popStored [operand] upholds active stack layout cells machine.losses

theorem write (upholds : machine.Upholds inv)
    (accepts : machine.OnTop (machine.Accepts inv address))
    (ran : machine.write id address = .ok next) : next.machine.Upholds inv := by
  rcases write_inv ran with
    ⟨-, same⟩ | ⟨active, operand, pointer, rest, memory, stack, wrote, result⟩
  · rw [same]
    exact upholds
  · obtain ⟨layout, cells⟩ := accepts operand (pointer :: rest) stack memory wrote
    rw [result]
    exact popStored [operand, pointer] upholds active stack layout cells _

theorem dropOperands (upholds : machine.Upholds inv)
    (ran : machine.dropOperands id = .ok next) : next.machine.Upholds inv := by
  rcases dropOperands_inv ran with ⟨-, same⟩ | ⟨-, result⟩
  · rw [same]
    exact upholds
  · rw [result]
    exact upholds.clear

theorem unary (upholds : machine.Upholds inv) {op : UnaryOp}
    (new : machine.OnTop fun operand ↦ inv.operand machine.asked (applyUnary op operand ty value))
    (ran : machine.unary id op ty value = .ok next) : next.machine.Upholds inv := by
  rcases unary_inv ran with ⟨-, same⟩ | ⟨active, operand, rest, stack, result⟩
  · rw [same]
    exact upholds
  · rw [result]
    exact replaceTop [operand] upholds active stack (new operand rest stack) _

/-- The two topmost operands are replaced by one. -/
theorem onTwo (upholds : machine.Upholds inv) {combine : Operand → Operand → Operand}
    (new : machine.OnTopTwo fun lhs rhs ↦ inv.operand machine.asked (combine lhs rhs))
    (ran : machine.onTwo id combine = .ok next) : next.machine.Upholds inv := by
  rcases onTwo_inv ran with ⟨-, same⟩ | ⟨active, rhs, lhs, rest, stack, result⟩
  · rw [same]
    exact upholds
  · rw [result]
    exact replaceTop [rhs, lhs] upholds active stack (new rhs lhs rest stack) _

theorem untracked (lawful : inv.Lawful admissible) (upholds : machine.Upholds inv)
    (ran : machine.untracked id ty value = .ok next) : next.machine.Upholds inv := by
  rcases untracked_inv ran with ⟨-, same⟩ | ⟨active, rhs, lhs, rest, stack, result⟩
  · rw [same]
    exact upholds
  · rw [result]
    exact replaceTop [rhs, lhs] upholds active stack
      (lawful.formed _ _ (formed_concrete _ ty value)) _

theorem branch (upholds : machine.Upholds inv) {branch : BranchId} {taken : Bool}
    (sustains : machine.Sustains admissible inv (.branch id branch taken))
    (ran : machine.branch id branch taken = .ok next) : next.machine.Upholds inv := by
  rcases branch_inv ran with
    ⟨-, result⟩ | ⟨active, ⟨typed, stack, result⟩ | ⟨e, stack, result⟩⟩
  · rw [result]
    exact withPath (machine.record.path.push branch) upholds (fun _ member ↦ .inl member) rfl rfl
      (fun _ member ↦ member) upholds.idle
  · rw [result]
    exact withPath (machine.record.path.push branch) upholds (fun _ member ↦ .inl member) rfl rfl
      (fun _ member ↦ by cases member) fun _ ↦ rfl
  · rw [result]
    refine withPath (machine.record.path.pushConstraint branch e.condition taken) upholds
      (fun constraint member ↦ ?_) rfl rfl (fun _ member ↦ by cases member) fun _ ↦ rfl
    rcases List.mem_append.mp member with old | new
    · exact .inl old
    · obtain rfl := List.mem_singleton.mp new
      exact .inr (sustains e _ stack)

theorem call (upholds : machine.Upholds inv) {function : FunctionId}
    (ran : machine.call id function = .ok next) : next.machine.Upholds inv := by
  rw [call_inv ran]
  exact withPath (machine.record.path.push callBranch) upholds (fun _ member ↦ .inl member) rfl rfl
    (fun _ member ↦ by cases member) fun _ ↦ rfl

theorem ret (upholds : machine.Upholds inv) (ran : machine.ret id = .ok next) :
    next.machine.Upholds inv := by
  obtain ⟨scope, scopes, pending, -, -, result⟩ := ret_inv ran
  rw [result]
  exact withPath (machine.record.path.push returnBranch) upholds (fun _ member ↦ .inl member) rfl rfl
    (fun _ member ↦ member) upholds.idle

theorem takeResult (lawful : inv.Lawful admissible) (upholds : machine.Upholds inv)
    (ran : machine.takeResult id ty value = .ok next) : next.machine.Upholds inv := by
  rcases takeResult_inv ran with ⟨-, same⟩ | ⟨active, ⟨-, -, result⟩ | ⟨-, result⟩⟩
  · rw [same]
    exact upholds
  · rw [result]
    exact upholds.withStack rfl rfl upholds.stack upholds.idle
  · rw [result]
    refine upholds.withStack rfl rfl (fun operand member ↦ ?_) fun idle ↦ ?_
    · obtain rfl := List.mem_singleton.mp member
      exact lawful.formed _ _ (formed_concrete _ ty value)
    · rw [show machine.awaitingInput = true from idle] at active
      contradiction

/-- One event keeps an invariant that what is new satisfies. -/
theorem step (lawful : inv.Lawful admissible) (upholds : machine.Upholds inv) {event : Event}
    (sustains : machine.Sustains admissible inv event) (ran : machine.step event = .ok next) :
    next.machine.Upholds inv := by
  cases event with
  | newInput ty address => exact upholds.newInput lawful sustains ran
  | alloc id address size => exact upholds.alloc lawful ran
  | load id address ty value => exact upholds.load lawful sustains.1 sustains.2 ran
  | deref id address ty value => exact upholds.deref lawful sustains.1 sustains.2 ran
  | store id address => exact upholds.store sustains ran
  | write id address => exact upholds.write sustains ran
  | dropOperands id => exact upholds.dropOperands ran
  | unary id op ty value => exact upholds.unary sustains ran
  | binary id op ty value => exact upholds.onTwo sustains ran
  | compare id op ty value => exact upholds.onTwo sustains ran
  | pointer id op size value => exact upholds.onTwo sustains ran
  | untracked id ty value => exact upholds.untracked lawful ran
  | branch id branch taken => exact upholds.branch sustains ran
  | call id function => exact upholds.call ran
  | ret id => exact upholds.ret ran
  | takeResult id ty value => exact upholds.takeResult lawful ran

end Steps

/-- A run keeps an invariant if each event that is allowed at a machine sustains it there. -/
theorem run {allowed : Machine → Event → Prop} (lawful : inv.Lawful admissible)
    (sustained : ∀ machine event, machine.Upholds inv → allowed machine event →
      machine.Sustains admissible inv event)
    (upholds : machine.Upholds inv) {events : List Event} (along : machine.Along allowed events)
    (ran : machine.run events = .ok after) : after.Upholds inv := by
  induction events generalizing machine with
  | nil =>
    cases ran
    exact upholds
  | cons event rest ih =>
    obtain ⟨first, stepped, ran⟩ := bind_eq_ok.mp ran
    have kept := upholds.step lawful (sustained machine event upholds along.1) stepped
    exact ih kept (along.2 first stepped) ran

end Upholds

theorem upholds_start {inv : Invariant} (policy : PointerPolicy) (inputs : List Value)
    (asked : inv.asked ⟨inputs, .empty, 0⟩) : (start policy inputs).Upholds inv where
  layout := layout_empty
  asked := asked
  cells _ _ found := by cases found
  stack _ member := by cases member
  constraints _ member := by cases member
  idle _ := rfl

end Machine

end Concolic
