import Concolic.Proofs.Machine.Closure
import Concolic.Proofs.Machine.History
import Concolic.Proofs.Machine.Upkeep

/-!
# Where inputs flow

Expressions stand only where something depends on an input.  On every run this holds of whole
operands, bindings and conditions, and of their nodes: a node without inputs is a constant, put
beside an operand that has some, and the parts of an assembled value all depend on inputs.  What is
computed from plain operands, or read where nothing is bound, stays plain.
-/

namespace Concolic

namespace Expr

/-- A node without inputs is a constant, and no part of an assembled value is one. -/
structure Fed (e : Expr) : Prop where
  constant : e.isConcrete = true → ∃ ty value, e = .const ty value
  parts : ∀ ty size parts value, e = .assemble ty size parts value →
    ∀ part ∈ parts, part.2.isConcrete = false

/-- The expression depends on inputs, and all of its nodes are fed. -/
structure Flows (e : Expr) : Prop where
  depends : e.isConcrete = false
  fed : Everywhere Fed e

variable {e l r : Expr}

theorem exists_input (depends : e.isConcrete = false) :
    ∃ id ty value, .input id ty value ∈ e.leaves := by
  simpa [depends] using (isConcrete_iff e).not

/-- A node that depends on inputs is fed, unless it is assembled. -/
theorem fed_of_depends (depends : e.isConcrete = false)
    (plain : ∀ ty size parts value, e ≠ .assemble ty size parts value) : Fed e where
  constant concrete := by
    rw [depends] at concrete
    contradiction
  parts ty size parts value same := absurd same (plain ty size parts value)

theorem everywhere_fed_mkConst (ty : CType) (value : Value) : Everywhere Fed (.mkConst ty value) :=
  (everywhere_leaf rfl).mpr ⟨fun _ ↦ ⟨_, _, rfl⟩, nofun⟩

theorem flows_mkInput (id : InputId) (ty : CType) (value : Value) :
    (mkInput id ty value).Flows where
  depends := rfl
  fed := (everywhere_leaf rfl).mpr (fed_of_depends rfl nofun)

theorem Flows.mkUnary (flows : e.Flows) (op : UnaryOp) (ty : CType) (value : Value) :
    (mkUnary op e ty value).Flows where
  depends := flows.depends
  fed := (everywhere_unary ..).mpr ⟨fed_of_depends flows.depends nofun, flows.fed⟩

theorem Flows.slice (flows : e.Flows) (offset bytes : BitVec 32) (value : Value) :
    (slice e offset bytes value).Flows where
  depends := flows.depends
  fed := (everywhere_slice ..).mpr ⟨fed_of_depends flows.depends nofun, flows.fed⟩

theorem Flows.convert (flows : e.Flows) (ty : CType) : (Memory.convert e ty).Flows := by
  unfold Memory.convert
  split
  · exact flows
  · exact flows.mkUnary _ ty _

theorem Flows.mkAssemble {parts : List (BitVec 32 × Expr)} (some_parts : parts ≠ [])
    (each : ∀ part ∈ parts, part.2.Flows) (ty : CType) (size : BitVec 32) (value : Value) :
    (mkAssemble ty size parts value).Flows := by
  have sorted (part : BitVec 32 × Expr) (member : part ∈ sortParts parts) : part.2.Flows :=
    each part ((mem_sortParts part parts).mp member)
  obtain ⟨part, member⟩ := List.exists_mem_of_ne_nil parts some_parts
  have depends : (assemble ty size (sortParts parts) (ty.normalize value)).isConcrete = false := by
    rw [isConcrete, arePartsConcrete_eq_all, List.all_eq_false]
    exact ⟨part, (mem_sortParts part parts).mpr member, by simp [(each part member).depends]⟩
  refine ⟨depends, (everywhere_assemble ..).mpr ⟨⟨fun concrete ↦ ?_, ?_⟩, fun part member ↦ ?_⟩⟩
  · rw [depends] at concrete
    contradiction
  · rintro _ _ _ _ ⟨⟩ part member
    exact (sorted part member).depends
  · exact (sorted part member).fed

/-- Of two operands that stand beside each other one depends on inputs. -/
theorem flows_beside (beside : Machine.Beside Flows l r) :
    (l.isConcrete && r.isConcrete) = false ∧ Everywhere Fed l ∧ Everywhere Fed r := by
  cases beside with
  | two left right => exact ⟨by rw [left.depends, Bool.false_and], left.fed, right.fed⟩
  | left here ty value =>
    exact ⟨by rw [here.depends, Bool.false_and], here.fed, everywhere_fed_mkConst ty value⟩
  | right ty value here =>
    exact ⟨by rw [here.depends, Bool.and_false], everywhere_fed_mkConst ty value, here.fed⟩

end Expr

open Concolic.Expr (Everywhere Fed Flows)

/-- Memory keeps expressions fed. -/
theorem Memory.closed_flows : Memory.Closed Flows where
  cut flows cut := Expr.mkSlice_closed
    (fun _ _ _ _ flows ↦ ⟨flows.depends, ((Expr.everywhere_slice ..).mp flows.fed).2⟩)
    (fun _ offset bytes flows ↦ flows.slice offset bytes _) flows cut
  converted ty flows := flows.convert ty
  part flows part member :=
    ⟨flows.fed.here.parts _ _ _ _ rfl part member,
      ((Expr.everywhere_assemble ..).mp flows.fed).2 part member⟩
  assembled observed _ some_parts each :=
    Flows.mkAssemble some_parts each observed.ty _ observed.value

/-- No binding has bytes in the range. -/
def Memory.Misses (memory : Memory) (address : Address) (length : Nat) : Prop :=
  0 < length → ∀ start e, memory.get? start = some e →
    ¬Meets address.toNat (address.toNat + length) start e

instance (memory : Memory) (address : Address) (length : Nat) :
    Decidable (memory.Misses address length) :=
  decidable_of_iff (0 < length → ∀ cell ∈ memory.cells.entries,
      ¬Meets address.toNat (address.toNat + length) cell.1 cell.2) <| by
    simp only [Memory.Misses, Prod.forall, memory.cells.mem_entries_iff]
    exact Iff.rfl

/-- Where nothing is bound a read gives the observed value. -/
theorem Memory.Misses.readReporting {memory : Memory} {address : Address} {ty : CType}
    {value : Value} (apart : memory.Misses address (TypedValue.of ty value).bytes) :
    memory.readReporting address ty value = .ok { operand := .concrete (.of ty value) } := by
  have none : (if (TypedValue.of ty value).bytes = 0 then []
      else memory.bindingsIn address (TypedValue.of ty value).bytes) = [] := by
    split
    · rfl
    · next some_bytes =>
      refine List.eq_nil_iff_forall_not_mem.mpr fun ⟨start, e⟩ member ↦ ?_
      obtain ⟨found, meets⟩ := of_mem_bindingsIn member
      exact apart (by omega) start e found meets
  rw [Memory.readReporting]
  simp only [none, List.isEmpty_nil, if_true]

namespace Machine

theorem closed_flows : Closed (fun _ ↦ True) Flows where
  toClosed := Memory.closed_flows
  observed _ _ := trivial
  unary op _ ty value flows := flows.mkUnary op ty value
  binary _ _ _ _ _ beside :=
    have ⟨depends, fed⟩ := Expr.flows_beside beside
    ⟨depends, (Expr.everywhere_binary ..).mpr ⟨Expr.fed_of_depends depends nofun, fed⟩⟩
  compare _ _ _ _ _ beside :=
    have ⟨depends, fed⟩ := Expr.flows_beside beside
    ⟨depends, (Expr.everywhere_compare ..).mpr ⟨Expr.fed_of_depends depends nofun, fed⟩⟩
  pointer _ _ _ _ _ beside :=
    have ⟨depends, fed⟩ := Expr.flows_beside beside
    ⟨depends, (Expr.everywhere_pointer ..).mpr ⟨Expr.fed_of_depends depends nofun, fed⟩⟩

/-! ## Plain results -/

/-- Nothing that the event takes up depends on inputs, or what it does is not tracked; the value is
what the event reports. -/
inductive Unfed (machine : Machine) : Event → TypedValue → Prop where
  | load {id : InstructionId} {address : Address} {ty : CType} {value : Value}
      (apart : machine.memory.Misses address (TypedValue.of ty value).bytes) :
      Unfed machine (.load id address ty value) (.of ty value)
  | deref {id : InstructionId} {address : Address} {ty : CType} {value : Value}
      (apart : machine.memory.Misses address (TypedValue.of ty value).bytes) :
      Unfed machine (.deref id address ty value) (.of ty value)
  | unary {id : InstructionId} {op : UnaryOp} {ty : CType} {value : Value}
      (plain : machine.OnTop fun operand ↦ operand.isSymbolic = false) :
      Unfed machine (.unary id op ty value) (.of ty value)
  | binary {id : InstructionId} {op : BinaryOp} {ty : CType} {value : Value}
      (plain : machine.OnTopTwo fun lhs rhs ↦ (lhs.isSymbolic || rhs.isSymbolic) = false) :
      Unfed machine (.binary id op ty value) (.of ty value)
  | compare {id : InstructionId} {op : CompareOp} {ty : CType} {value : Value}
      (plain : machine.OnTopTwo fun lhs rhs ↦ (lhs.isSymbolic || rhs.isSymbolic) = false) :
      Unfed machine (.compare id op ty value) (.of ty value)
  | pointer {id : InstructionId} {op : PointerOp} {size : BitVec 64} {value : Value}
      (plain : machine.OnTopTwo fun lhs rhs ↦ (lhs.isSymbolic || rhs.isSymbolic) = false) :
      Unfed machine (.pointer id op size value) (.of op.resultType value)
  | untracked {id : InstructionId} {ty : CType} {value : Value} :
      Unfed machine (.untracked id ty value) (.of ty value)

variable {machine : Machine} {step : Step} {event : Event} {observed : TypedValue}

theorem onTwo_plain {id : InstructionId} {combine : Operand → Operand → Operand}
    (plain : machine.OnTopTwo fun lhs rhs ↦ (lhs.isSymbolic || rhs.isSymbolic) = false)
    (combined : ∀ lhs rhs, (lhs.isSymbolic || rhs.isSymbolic) = false →
      combine lhs rhs = .concrete observed)
    (ran : machine.onTwo id combine = .ok step) :
    machine.awaitingInput = true ∧ step.machine = machine ∨
      machine.awaitingInput = false ∧ step.machine.stack.head? = some (.concrete observed) := by
  refine (onTwo_inv ran).imp_right fun ⟨active, rhs, lhs, rest, stack, result⟩ ↦ ⟨active, ?_⟩
  rw [result, combined lhs rhs (plain rhs lhs rest stack)]
  rfl

/-- The result is the value that the program observed, as it is. -/
theorem Unfed.head?_eq (unfed : machine.Unfed event observed) (ran : machine.step event = .ok step) :
    machine.awaitingInput = true ∧ step.machine = machine ∨
      machine.awaitingInput = false ∧ step.machine.stack.head? = some (.concrete observed) := by
  cases unfed with
  | load apart =>
    refine (load_inv ran).imp_right fun ⟨active, reading, read, result⟩ ↦ ⟨active, ?_⟩
    rw [apart.readReporting] at read
    cases read
    rw [result]
    rfl
  | @deref id address ty value apart =>
    refine (deref_inv ran).imp_right fun ⟨active, _, rest, reading, stack, read, result⟩ ↦
      ⟨active, ?_⟩
    have plain : reading.operand = .concrete (.of ty value) := by
      split at read
      · unfold PointerPolicy.read at read
        split at read
        · cases read
          rfl
        · rw [apart.readReporting] at read
          cases read
          rfl
      · rw [apart.readReporting] at read
        cases read
        rfl
    rw [result]
    exact congrArg some plain
  | unary plain =>
    refine (unary_inv ran).imp_right fun ⟨active, operand, rest, stack, result⟩ ↦ ⟨active, ?_⟩
    have here := plain operand rest stack
    rw [result]
    cases operand with
    | concrete typed => rfl
    | symbolic e => contradiction
  | @binary id op ty value plain =>
    have combined (lhs rhs : Operand) (none : (lhs.isSymbolic || rhs.isSymbolic) = false) :
        applyBinary op lhs rhs ty value = .concrete (.of ty value) := if_neg (by simp [none])
    exact onTwo_plain plain combined ran
  | @compare id op ty value plain =>
    have combined (lhs rhs : Operand) (none : (lhs.isSymbolic || rhs.isSymbolic) = false) :
        applyCompare op lhs rhs ty value = .concrete (.of ty value) := if_neg (by simp [none])
    exact onTwo_plain plain combined ran
  | @pointer id op size value plain =>
    have combined (lhs rhs : Operand) (none : (lhs.isSymbolic || rhs.isSymbolic) = false) :
        applyPointer op lhs rhs size value = .concrete (.of op.resultType value) :=
      if_neg (by simp [none])
    exact onTwo_plain plain combined ran
  | untracked =>
    refine (untracked_inv ran).imp_right fun ⟨active, rhs, lhs, rest, stack, result⟩ ↦ ⟨active, ?_⟩
    rw [result]
    rfl

/-! ## Runs -/

/-- The expressions that a machine holds. -/
inductive Carries (machine : Machine) : Expr → Prop where
  | stack {e : Expr} (member : .symbolic e ∈ machine.stack) : Carries machine e
  | cell {address : Address} {e : Expr} (found : machine.memory.get? address = some e) :
      Carries machine e
  | condition {constraint : Constraint}
      (member : constraint ∈ machine.record.path.constraints) : Carries machine constraint.condition

variable {policy : PointerPolicy} {inputs : List Value} {events : List Event} {final : Machine}

theorem flows_run (ran : (start policy inputs).run events = .ok final) :
    final.Holds (fun _ ↦ True) Flows := by
  refine run_induction ran (holds_start _ _ policy inputs) fun _ _ _ _ _ ih stepped ↦ ?_
  exact holds_step closed_flows ih (fun ty _ _ _ _ ↦ Expr.flows_mkInput _ ty _) stepped

theorem stack_of_idle (ran : (start policy inputs).run events = .ok final)
    (idle : final.awaitingInput = true) : final.stack = [] := by
  have asked : askedTypes events = [] := by
    rwa [awaitingInput_run rfl ran, List.isEmpty_iff] at idle
  exact ((untouched_start policy inputs).run rfl asked ran).stack

/-- Whatever a machine holds in a run depends on inputs, down to the constants beside operands that
do; what nothing feeds stays plain. -/
theorem run_flows (ran : (start policy inputs).run events = .ok final) :
    (∀ e, final.Carries e → e.isConcrete = false ∧
      (∃ id ty value, .input id ty value ∈ e.leaves) ∧ Everywhere Fed e) ∧
    ∀ event observed step, final.Unfed event observed → final.step event = .ok step →
      step.machine.stack.head? =
        if final.awaitingInput then none else some (.concrete observed) := by
  have holds := flows_run ran
  refine ⟨fun e carried ↦ ?_, fun event observed step unfed stepped ↦ ?_⟩
  · have flows : e.Flows := by
      cases carried with
      | stack member => exact holds.stack _ member
      | cell found => exact holds.memory _ e found
      | condition member => exact holds.constraints _ member
    exact ⟨flows.depends, Expr.exists_input flows.depends, flows.fed⟩
  · rcases unfed.head?_eq stepped with ⟨idle, same⟩ | ⟨active, result⟩
    · rw [same, stack_of_idle ran idle, idle]
      rfl
    · rw [result, active]
      rfl

/-- A branch on an input, a sum with a constant stored across its border, and both read back. -/
def flowEvents : List Event :=
  [.newInput .int 4096, .load 1 4096 .int 7, .branch 2 5 true, .load 3 4096 .int 7,
    .load 4 8192 .int 3, .binary 5 .add .int 10, .store 6 4098, .load 7 4096 .struct 8]

theorem run_flows_across :
    ∃ final e step, (start .follow [7]).run flowEvents = .ok final ∧
      final.stack = [.symbolic e] ∧
      (e.isConcrete = false ∧ (∃ id ty value, .input id ty value ∈ e.leaves) ∧ Everywhere Fed e) ∧
      final.Unfed (.load 8 8192 .int 3) (.of .int 3) ∧
      final.step (.load 8 8192 .int 3) = .ok step ∧
      step.machine.stack.head? = some (.concrete (.of .int 3)) := by
  obtain ⟨final, e, step, ran, stack, apart, stepped, active⟩ : ∃ final e step,
      (start .follow [7]).run flowEvents = .ok final ∧ final.stack = [.symbolic e] ∧
      final.memory.Misses 8192 4 ∧ final.step (.load 8 8192 .int 3) = .ok step ∧
      final.awaitingInput = false := ⟨_, _, _, rfl, rfl, by decide, rfl, rfl⟩
  obtain ⟨carried, plain⟩ := run_flows ran
  have unfed : final.Unfed (.load 8 8192 .int 3) (.of .int 3) := .load apart
  have result := plain _ _ step unfed stepped
  rw [active] at result
  exact ⟨final, e, step, ran, stack, carried e (.stack (by simp [stack])), unfed, stepped, result⟩

end Machine

end Concolic
