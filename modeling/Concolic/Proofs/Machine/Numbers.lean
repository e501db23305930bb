import Concolic.Proofs.Machine.History
import Concolic.Proofs.Machine.Upkeep

/-!
# Numbers of inputs

Inputs have numbers of 32 bits, given in the order in which inputs are asked for.  A run that asks
for no more than that many gives each a number of its own.  Nothing stops a run from asking for
more: the numbers begin again at zero, and the declarations of the first inputs are replaced.
-/

namespace Concolic

namespace Machine

variable {machine : Machine} {events : List Event}

/-- The number of a new input has not been given before. -/
def Unwrapped (machine : Machine) (event : Event) : Prop :=
  ∀ ty, event.asked? = some ty → machine.inputCount < 2 ^ 32

/-- The numbers do not wrap in a run that asks for no more inputs than there are numbers. -/
theorem along_unwrapped (narrow : machine.inputCount + (askedTypes events).length ≤ 2 ^ 32) :
    machine.Along Unwrapped events := by
  induction events generalizing machine with
  | nil => trivial
  | cons event rest ih =>
    rw [askedTypes_cons, List.length_append] at narrow
    refine ⟨fun ty asked ↦ ?_, fun step stepped ↦ ih ?_⟩
    · rw [asked, Option.toList_some, List.length_singleton] at narrow
      omega
    · rw [inputCount_step stepped]
      omega

/-- Conditions on a run are conditions on its first part and on what comes after it. -/
theorem Along.append {P : Machine → Event → Prop} {before after : List Event}
    (first : machine.Along P before)
    (later : ∀ middle, machine.run before = .ok middle → middle.Along P after) :
    machine.Along P (before ++ after) := by
  induction before generalizing machine with
  | nil => exact later machine rfl
  | cons event rest ih =>
    refine ⟨first.1, fun step stepped ↦ ih (first.2 step stepped) fun middle ran ↦ ?_⟩
    exact later middle (run_cons_eq_ok.mpr ⟨step, stepped, ran⟩)

theorem along_replicate {P : Machine → Event → Prop} {event : Event}
    (always : ∀ machine, P machine event) (count : Nat) :
    machine.Along P (.replicate count event) :=
  along_of_forall fun other member machine ↦ by
    rw [List.eq_of_mem_replicate member]
    exact always machine

end Machine

/-! ## One input over another -/

namespace Memory

/-- A memory with one binding. -/
def only (address : Address) (e : Expr) : Memory :=
  ⟨WordMap.empty.insert address e⟩

variable {address : Address} {ty : CType} {e f : Expr}

theorem get?_only (address : Address) (e : Expr) :
    (only address e).cells.get? address = some e := by
  rw [only, WordMap.get?_insert, if_pos rfl]

theorem bindingsIn_only (some_bytes : 0 < e.bytes) (fits : FitsAt address e.bytes) :
    (only address e).bindingsIn address e.bytes = [(address, e)] := by
  unfold FitsAt at fits
  have searched : address.toNat < min (address.toNat + e.bytes) lastAddress := by
    unfold lastAddress
    omega
  have reaches : address.toNat < address.toNat + e.bytes := by omega
  have entries : (only address e).cells.entries = [(address, e)] := rfl
  simp only [bindingsIn, entries, List.filter_cons, List.filter_nil, searched, reaches, decide_true,
    if_true, List.reverse_singleton, List.takeWhile_cons, List.takeWhile_nil]

/-- Clearing all bytes of the only binding leaves none. -/
theorem concretize_only (some_bytes : 0 < e.bytes) (fits : FitsAt address e.bytes) :
    (only address e).concretize address e.bytes = .ok .empty := by
  have erased : (only address e).cells.erase address = .empty :=
    WordMap.ext_entries <| by
      simp [only, WordMap.erase, WordMap.empty, WordMap.insert, WordMap.insertEntry]
  have cleared : clearCell address e.bytes (only address e).cells address = .ok .empty := by
    rw [clearCell, get?_only]
    simp only [keepAbove, erased, Nat.lt_irrefl, if_false]
    exact if_neg (BitVec.lt_irrefl address)
  rw [concretize, if_neg (by omega), bindingsIn_only some_bytes fits]
  simp only [List.map_singleton, List.foldlM_cons, List.foldlM_nil, cleared]
  rfl

theorem write_of_concretize {memory : Memory} (scalar : ty ≠ .struct) (sized : e.bytes = ty.size)
    (cleared : memory.concretize address ty.size = .ok .empty) :
    memory.write address ty e = .ok (only address e) := by
  rw [write, (CType.isStruct_eq_false_iff ty).mpr scalar, if_neg Bool.false_ne_true,
    if_pos sized, cleared]
  rfl

end Memory

/-! ## More inputs than numbers -/

/-- Values of which the last one differs from all others. -/
def lastDiffers (count : Nat) : List Value :=
  .replicate count 0 ++ [1]

theorem length_lastDiffers (count : Nat) : (lastDiffers count).length = count + 1 := by
  rw [lastDiffers, List.length_append, List.length_replicate, List.length_singleton]

theorem getElem?_lastDiffers (count : Nat) : (lastDiffers count)[count]? = some 1 := by
  rw [lastDiffers, List.getElem?_append_right (by simp), List.length_replicate, Nat.sub_self]
  rfl

theorem getElem?_lastDiffers_of_lt {index count : Nat} (before : index < count) :
    (lastDiffers count)[index]? = some 0 := by
  rw [lastDiffers, List.getElem?_append_left (by simpa using before), List.getElem?_replicate,
    if_pos before]

/-- An input is evaluated to the entry that 32 bits of its place among the inputs refer to. -/
theorem Expr.evaluate_mkInput {inputs : List Value} {place : Nat} {entry : Value}
    (given : inputs[place % 2 ^ 32]? = some entry) (ty : CType) (value : Value) :
    (Expr.mkInput (.ofNat 32 place) ty value).evaluate inputs = ty.normalize entry := by
  rw [Expr.mkInput, Expr.evaluate, BitVec.toNat_ofNat, given]

namespace Machine

variable {machine : Machine} {ty : CType} {address : Address}

/-- What is in memory is gone as soon as an input is bound to the address. -/
def Yields (machine : Machine) (ty : CType) (address : Address) : Prop :=
  machine.memory.concretize address ty.size = .ok .empty

/-- The machine after inputs of one type that were bound one over the other, the last of them given
as `entry`. -/
def rebound (machine : Machine) (ty : CType) (address : Address) (last : Nat) (entry : Value)
    (vars : WordMap 32 CType) : Machine :=
  { machine with
    record := { machine.record with
      vars := vars.insert (.ofNat 32 last) ty
      memory := .only address (.mkInput (.ofNat 32 last) ty (ty.normalize entry)) }
    inputCount := last + 1
    awaitingInput := false }

theorem yields_start (policy : PointerPolicy) (inputs : List Value) (ty : CType)
    (address : Address) : (start policy inputs).Yields ty address :=
  concretize_empty address ty.size

theorem yields_rebound (scalar : ty ≠ .struct) (fits : FitsAt address ty.size) {other : CType}
    (same : other.size = ty.size) (last : Nat) (entry : Value) (vars : WordMap 32 CType) :
    (machine.rebound ty address last entry vars).Yields other address := by
  let e : Expr := .mkInput (.ofNat 32 last) ty (ty.normalize entry)
  have size : e.bytes = ty.size := rfl
  rw [Yields, same, ← size]
  exact Memory.concretize_only (CType.size_pos scalar) fits

theorem newInput_of_yields (scalar : ty ≠ .struct) (yields : machine.Yields ty address)
    {entry : Value} (given : machine.record.inputs[machine.inputCount]? = some entry) :
    ∃ step, machine.step (.newInput ty address) = .ok step ∧
      step.machine =
        machine.rebound ty address machine.inputCount entry machine.record.vars := by
  have wrote := Memory.write_of_concretize
    (e := .mkInput (.ofNat 32 machine.inputCount) ty (ty.normalize entry)) scalar rfl yields
  rw [Machine.step, newInput, (CType.isStruct_eq_false_iff ty).mpr scalar,
    if_neg Bool.false_ne_true]
  simp only [given, wrote]
  exact ⟨_, rfl, rfl⟩

/-- A run may ask for any number of inputs at one address.  Only the last one stays in memory, with
the number that 32 bits leave of its place among the inputs. -/
theorem run_replicate_newInput (scalar : ty ≠ .struct) (fits : FitsAt address ty.size)
    (yields : machine.Yields ty address) {count last : Nat}
    (place : machine.inputCount + count = last) {entry : Value}
    (given : machine.record.inputs[last]? = some entry) :
    ∃ vars, machine.run (.replicate (count + 1) (.newInput ty address)) =
      .ok (machine.rebound ty address last entry vars) := by
  subst place
  induction count generalizing entry with
  | zero =>
    obtain ⟨step, stepped, result⟩ := newInput_of_yields scalar yields given
    refine ⟨machine.record.vars, ?_⟩
    show machine.run [.newInput ty address] = _
    exact run_cons_eq_ok.mpr ⟨step, stepped, congrArg Except.ok result⟩
  | succ count ih =>
    have below := (List.getElem?_eq_some_iff.mp given).1
    obtain ⟨earlier, before⟩ : ∃ earlier,
        machine.record.inputs[machine.inputCount + count]? = some earlier :=
      ⟨_, List.getElem?_eq_getElem (by omega)⟩
    obtain ⟨vars, ran⟩ := ih before
    let middle := machine.rebound ty address (machine.inputCount + count) earlier vars
    obtain ⟨step, stepped, result⟩ : ∃ step, middle.step (.newInput ty address) = .ok step ∧
        step.machine =
          middle.rebound ty address (machine.inputCount + (count + 1)) entry middle.record.vars :=
      newInput_of_yields scalar (yields_rebound scalar fits rfl _ _ _) given
    refine ⟨middle.record.vars, ?_⟩
    rw [List.replicate_succ']
    exact run_concat_eq_ok.mpr ⟨middle, step, ran, stepped, result⟩

theorem fitsAt_int : FitsAt 16 CType.int.size := by
  decide

/-- All inputs are zero but the last one, which is what stays. -/
theorem run_lastDiffers (policy : PointerPolicy) (count : Nat) :
    ∃ vars, (start policy (lastDiffers count)).run (.replicate (count + 1) (.newInput .int 16)) =
      .ok ((start policy (lastDiffers count)).rebound .int 16 count 1 vars) :=
  run_replicate_newInput (by decide) fitsAt_int (yields_start policy (lastDiffers count) .int 16)
    (Nat.zero_add count) (getElem?_lastDiffers count)

/-- An input of value one is read back as it is. -/
theorem load_rebound (policy : PointerPolicy) (inputs : List Value) (last : Nat)
    (vars : WordMap 32 CType) :
    ∃ step,
      ((start policy inputs).rebound .int 16 last 1 vars).step (.load 1 16 .int 1) = .ok step ∧
      step.machine = ((start policy inputs).rebound .int 16 last 1 vars).push
        (.symbolic (.mkInput (.ofNat 32 last) .int 1)) :=
  ⟨_, rfl, rfl⟩

end Machine

end Concolic
