import Concolic.Proofs.Expr.Bytes
import Concolic.Proofs.Machine.Built
import Concolic.Proofs.Smt.Exact
import Concolic.Proofs.Smt.PathCondition

/-!
# Terms of the expressions that runs build

The encoding looks at the width and the sign of a type alone, so that it does not tell a truth value
from a byte.  Every tree that a run builds is therefore encoded like one that has a bit-vector form:
the encoding never fails, and the term has the width of the tree.
-/

namespace Concolic

namespace Smt

open Concolic.Expr

/-! ## Encoding bytes for truth values -/

theorem encodePieces_partsAsBytes {parts : List (BitVec 32 × Expr)}
    (each : ∀ part ∈ parts, encoding part.2.asBytes = encoding part.2) (value : Value)
    (size first : Nat) :
    encodePieces value size (partsAsBytes parts) first = encodePieces value size parts first := by
  induction parts generalizing first with
  | nil => rfl
  | cons part rest ih =>
    obtain ⟨here, later⟩ := List.forall_mem_cons.mp each
    rw [partsAsBytes, encodePieces, encodePieces, here, bytes_asBytes, ih later]

/-- A tree is encoded as if its truth values were bytes. -/
theorem encoding_asBytes (e : Expr) : encoding e.asBytes = encoding e := by
  induction e with
  | input | const => simp only [asBytes, encoding, CType.bits_asByte]
  | unary op e ty value ih =>
    cases op <;> simp only [asBytes, encoding, Encoding.resized, ih, CType.bits_asByte,
      bits_asBytes, isSigned_asBytes]
  | binary op l r ty value ihl ihr | compare op l r ty value ihl ihr
  | pointer op l r size value ihl ihr =>
    simp only [asBytes, encoding, Encoding.resized, ihl, ihr, CType.bits_asByte, bits_asBytes,
      isSigned_asBytes]
  | slice e offset bytes value ih => simp only [asBytes, encoding, ih]
  | assemble ty size parts value ih =>
    simp only [asBytes, encoding, CType.isStruct_asByte, encodePieces_partsAsBytes ih]

theorem withLeaves_asBytes (context : Context) (leaves : List Leaf) :
    context.withLeaves (leaves.map Leaf.asBytes) = context.withLeaves leaves := by
  induction leaves generalizing context with
  | nil => rfl
  | cons leaf rest ih =>
    cases leaf with
    | const ty value => exact ih context
    | input id ty value =>
      rw [List.map_cons, Leaf.asBytes, Context.withLeaves_input, Context.withLeaves_input,
        CType.bits_asByte, ih]

theorem input_mem_leaves_asBytes {e : Expr} {id : InputId} {ty : CType} {value : Value}
    (member : .input id ty value ∈ e.asBytes.leaves) :
    ∃ own, ty = own.asByte ∧ .input id own value ∈ e.leaves := by
  rw [leaves_asBytes] at member
  obtain ⟨leaf, present, same⟩ := List.mem_map.mp member
  cases leaf with
  | const => cases same
  | input id own value =>
    cases same
    exact ⟨own, rfl, present⟩

section Shaped

variable {e : Expr} {encoder : Encoder Term} {meaning : List Value → Meaning} {sort : TermSort}

/-- What is denoted on the leaves as bytes is emitted on the leaves themselves. -/
theorem emits_of_asBytes (denotes : Denotes encoder e.asBytes.leaves meaning) :
    ∃ term, encoder.Emits term e.leaves := by
  obtain ⟨term, emits, -⟩ := denotes
  refine ⟨term, fun context ↦ ?_⟩
  rw [emits context, leaves_asBytes, withLeaves_asBytes]

/-- A truth value and a byte have one width, so declarations of one serve the other. -/
theorem admits_asBytes {context : Context} (admits : context.Admits e.leaves) :
    context.Admits e.asBytes.leaves := by
  intro id ty value member width present
  obtain ⟨own, rfl, here⟩ := input_mem_leaves_asBytes member
  rw [CType.bits_asByte]
  exact admits id own value here width present

section Typed

variable (typed : ∀ id ty other value second,
  .input id ty value ∈ e.leaves → .input id other second ∈ e.leaves → ty = other)

include typed

theorem typed_asBytes (id : InputId) (ty other : CType) (value second : Value)
    (first : .input id ty value ∈ e.asBytes.leaves)
    (later : .input id other second ∈ e.asBytes.leaves) : ty = other := by
  obtain ⟨own, rfl, here⟩ := input_mem_leaves_asBytes first
  obtain ⟨owned, rfl, there⟩ := input_mem_leaves_asBytes later
  rw [typed id own owned value second here there]

theorem sorted_of_asBytes (denotes : Denotes encoder e.asBytes.leaves meaning)
    (ofSort : ∀ inputs, (meaning inputs).sort = sort) : encoder.Sorted e.leaves sort := by
  obtain ⟨term, emits, text, sorted⟩ := denotes.sorted ofSort (typed_asBytes typed)
  refine ⟨term, fun context ↦ ?_, text, fun context admits ↦ ?_⟩
  · rw [emits context, leaves_asBytes, withLeaves_asBytes]
  · have inContext := sorted context (admits_asBytes admits)
    rwa [leaves_asBytes, withLeaves_asBytes] at inContext

end Typed

variable (nodes : Everywhere ByteEncodable e)

include nodes

theorem denotes_word : Denotes (encodeExpr e) e.asBytes.leaves fun inputs ↦
    .word e.bits ((e.asBytes.evaluate inputs).setWidth e.bits) := by
  have agrees := (agrees_of_encodable (everywhere_encodable_asBytes nodes)).word
  rwa [encoding_asBytes, bits_asBytes] at agrees

theorem denotes_condition : Denotes (encodeCondition e) e.asBytes.leaves fun inputs ↦
    .truth (e.asBytes.evaluate inputs != 0) := by
  have agrees := (agrees_of_encodable (everywhere_encodable_asBytes nodes)).condition
  rwa [encoding_asBytes] at agrees

end Shaped

theorem denotes_constraint {constraint : Constraint}
    (nodes : Everywhere ByteEncodable constraint.condition) :
    Denotes (encodeConstraint constraint) constraint.condition.asBytes.leaves fun inputs ↦
      .truth ({ constraint with condition := constraint.condition.asBytes }.meets inputs) := by
  have same : encodeConstraint { constraint with condition := constraint.condition.asBytes } =
      encodeConstraint constraint := by
    simp only [encodeConstraint, encodeCondition, encoding_asBytes]
  rw [← same]
  exact denotes_encodeConstraint (everywhere_encodable_asBytes nodes)

/-! ## Runs -/

/-- The encoder never fails, and gives a term of the sort. -/
structure Blasts (encoder : Encoder Term) (leaves : List Leaf) (sort : TermSort) : Prop where
  emits : ∃ term, encoder.Emits term leaves
  sorted : encoder.Sorted leaves sort

/-- A tree of well-shaped nodes over inputs of their declared types, with terms for its bits and
for its truth. -/
structure WellBuilt (asked : Asked) (e : Expr) : Prop where
  shaped : Everywhere WellShaped e
  declared : ∀ id ty value, .input id ty value ∈ e.leaves → asked.vars.get? id = some ty
  word : Blasts (encodeExpr e) e.leaves (.word e.bits)
  condition : Blasts (encodeCondition e) e.leaves .truth

end Smt

open Smt

variable {asked : Asked} {e : Expr}

/-- As long as the numbers of inputs have not wrapped, all leaves of one number have one type. -/
theorem AllBuilt.blasts (built : AllBuilt asked e) (narrow : asked.count ≤ 2 ^ 32)
    {encoder : Encoder Term} {meaning : List Value → Meaning} {sort : TermSort}
    (denotes : Denotes encoder e.asBytes.leaves meaning)
    (ofSort : ∀ inputs, (meaning inputs).sort = sort) : Blasts encoder e.leaves sort where
  emits := emits_of_asBytes denotes
  sorted := by
    refine sorted_of_asBytes (fun id ty other value second first later ↦ ?_) denotes ofSort
    have here := built.declared narrow id ty value first
    have there := built.declared narrow id other second later
    exact Option.some.inj (here.symm.trans there)

theorem AllBuilt.byteEncodable (built : AllBuilt asked e) :
    Expr.Everywhere Expr.ByteEncodable e :=
  built.shaped.mono fun _ shaped ↦ shaped.byteEncodable

theorem AllBuilt.wellBuilt (built : AllBuilt asked e) (narrow : asked.count ≤ 2 ^ 32) :
    WellBuilt asked e where
  shaped := built.shaped
  declared := built.declared narrow
  word := built.blasts narrow (denotes_word built.byteEncodable) fun _ ↦ rfl
  condition := built.blasts narrow (denotes_condition built.byteEncodable) fun _ ↦ rfl

namespace Machine

/-- Everything symbolic that the machine holds is well built; an aggregate is a plain value or a
region of well-built parts. -/
structure HoldsWellBuilt (machine : Machine) : Prop where
  cells : ∀ start e, machine.memory.get? start = some e → WellBuilt machine.asked e
  scalars : ∀ e, .symbolic e ∈ machine.stack → e.ty ≠ .struct → WellBuilt machine.asked e
  aggregates : ∀ e, .symbolic e ∈ machine.stack → e.ty = .struct →
    ∃ size parts value, e = .assemble .struct size parts value ∧ PartsFit size.toNat parts ∧
      ∀ part ∈ parts, part.2.IsFlat ∧ WellBuilt machine.asked part.2
  constraints : ∀ constraint ∈ machine.record.path.constraints,
    WellBuilt machine.asked constraint.condition ∧
      Blasts (encodeConstraint constraint) constraint.condition.leaves .truth

theorem Upholds.holdsWellBuilt {machine : Machine} (upholds : machine.Upholds building)
    (narrow : machine.inputCount ≤ 2 ^ 32) : machine.HoldsWellBuilt where
  cells start e found := AllBuilt.wellBuilt (upholds.cells start e found) narrow
  scalars e member scalar :=
    AllBuilt.wellBuilt (Operand.holds_of_symbolic (upholds.stack _ member) scalar).1 narrow
  aggregates e member aggregate := by
    cases upholds.stack _ member with
    | scalar flat scalar sized built => exact absurd aggregate scalar
    | @region size parts value fit flat built =>
      exact ⟨size, parts, value, rfl, fit, fun part inside ↦
        ⟨flat part inside, AllBuilt.wellBuilt (built part inside) narrow⟩⟩
  constraints constraint member := by
    have built : AllBuilt machine.asked constraint.condition :=
      upholds.constraints constraint member
    exact ⟨built.wellBuilt narrow,
      built.blasts narrow (denotes_constraint built.byteEncodable) fun _ ↦ rfl⟩

/-- A run that gives operators no aggregates holds only expressions that can be given to a solver,
whatever values it reports, as long as it asks for no more inputs than there are numbers. -/
theorem run_wellBuilt {policy : PointerPolicy} {inputs : List Value} {events : List Event}
    {final : Machine} (narrow : (askedTypes events).length ≤ 2 ^ 32)
    (bounds : (start policy inputs).Along InBounds events)
    (scalarOnly : (start policy inputs).Along ScalarOnly events)
    (ran : (start policy inputs).run events = .ok final) : final.HoldsWellBuilt := by
  have count : final.inputCount = (askedTypes events).length :=
    (inputCount_run ran).trans (Nat.zero_add _)
  exact (upholds_building bounds scalarOnly ran).holdsWellBuilt (count ▸ narrow)

/-- A truth value and an integer are copied as an aggregate, read back and combined to a truth value
that nothing computes; a branch on it follows, and a struct is left on the stack. -/
def copiedEvents : List Event :=
  [.newInput .bool 0x1000, .newInput .int 0x1004, .load 1 0x1000 .struct 8, .store 2 0x2002,
    .load 3 0x2002 .bool 1, .load 4 0x2006 .int 9, .binary 5 .sdiv .bool 77, .branch 6 3 false,
    .load 7 0x2001 .struct 6]

theorem run_wellBuilt_copied :
    ∃ final, (start .follow [4, 9]).run copiedEvents = .ok final ∧
      final.record.path.constraints.length = 1 ∧ final.stack.length = 1 ∧
      (askedTypes copiedEvents).length ≤ 2 ^ 32 ∧
      (start .follow [4, 9]).Along InBounds copiedEvents ∧
      (start .follow [4, 9]).Along ScalarOnly copiedEvents ∧ final.HoldsWellBuilt := by
  have narrow : (askedTypes copiedEvents).length ≤ 2 ^ 32 := by decide
  have bounds : (start .follow [4, 9]).Along InBounds copiedEvents := by decide +kernel
  have scalarOnly : (start .follow [4, 9]).Along ScalarOnly copiedEvents := by decide +kernel
  exact ⟨_, rfl, rfl, rfl, narrow, bounds, scalarOnly, run_wellBuilt narrow bounds scalarOnly rfl⟩

/-- A first input of value one, loaded onto the stack. -/
def loadFirst : List Event :=
  [.newInput .int 16, .load 1 16 .int 1]

theorem run_loadFirst {inputs : List Value} (given : inputs[0]? = some 1) (policy : PointerPolicy) :
    (start policy inputs).run loadFirst =
      .ok (((start policy inputs).rebound .int 16 0 1 .empty).push
        (.symbolic (.mkInput 0 .int 1))) := by
  obtain ⟨asked, first, atFirst⟩ :=
    newInput_of_yields (by decide) (yields_start policy inputs .int 16) given
  obtain ⟨loaded, second, atSecond⟩ := load_rebound policy inputs 0 .empty
  refine run_cons_eq_ok.mpr ⟨asked, first, ?_⟩
  rw [atFirst]
  exact run_cons_eq_ok.mpr ⟨loaded, second, congrArg Except.ok atSecond⟩

/-- The input after the last number declares number zero again, with another type than that of the
first input, which is still on the stack. -/
theorem not_run_wellBuilt_wrapped :
    ¬∀ (policy : PointerPolicy) (inputs : List Value) (events : List Event) (final : Machine),
      (start policy inputs).Along InBounds events →
        (start policy inputs).Along ScalarOnly events →
          (start policy inputs).run events = .ok final → final.HoldsWellBuilt := by
  intro all
  obtain ⟨inputs, given⟩ : ∃ inputs : List Value, ∀ place < 2 ^ 32 + 1, inputs[place]? = some 1 :=
    ⟨.replicate (2 ^ 32 + 1) 1, fun place inside ↦ by rw [List.getElem?_replicate, if_pos inside]⟩
  have fits : FitsAt 16 CType.uint.size := fitsAt_int
  have first := run_loadFirst (given 0 (by decide)) .forget
  have yields : (((start .forget inputs).rebound .int 16 0 1 .empty).push
      (.symbolic (.mkInput 0 .int 1))).Yields .uint 16 :=
    yields_rebound (by decide) fitsAt_int rfl 0 1 .empty
  obtain ⟨vars, others⟩ := run_replicate_newInput (by decide) fits yields
    (show 0 + 1 + (2 ^ 32 - 1) = 2 ^ 32 from rfl) (given (2 ^ 32) (by decide))
  have ran := run_append_eq_ok.mpr ⟨_, first, others⟩
  have bounds : (start .forget inputs).Along InBounds loadFirst :=
    ⟨fitsAt_int, fun _ _ ↦ ⟨nofun, fun _ _ ↦ trivial⟩⟩
  have scalarOnly : (start .forget inputs).Along ScalarOnly loadFirst :=
    ⟨trivial, fun _ _ ↦ ⟨trivial, fun _ _ ↦ trivial⟩⟩
  have built := all _ _ _ _ (bounds.append fun _ _ ↦ along_replicate (fun _ ↦ fits) _)
    (scalarOnly.append fun _ _ ↦ along_replicate (fun _ ↦ trivial) _) ran
  have declared := (built.scalars (.mkInput 0 .int 1) List.mem_cons_self (by decide)).declared
    0 .int 1 (by decide)
  have replaced : (vars.insert (.ofNat 32 (2 ^ 32)) .uint).get? 0 = some .uint := by
    rw [WordMap.get?_insert, if_pos (by decide)]
  exact absurd (declared.symm.trans replaced) (by decide)

end Machine

end Concolic
