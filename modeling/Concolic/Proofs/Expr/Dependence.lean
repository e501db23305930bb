import Concolic.Proofs.Expr.Checked

/-!
# What evaluation can see

The inputs of an expression are those among its leaves, and the queries about them look at the same
leaves as evaluation does.  Two vectors of inputs that agree there cannot be told apart by
evaluation; so an expression does not depend on inputs that a query rules out, and one that is
concrete has a single value.
-/

namespace Concolic.Expr

/-- Both vectors have the same entry at these inputs, or none in both. -/
def AgreeOn (among : InputId → Prop) (first second : List Value) : Prop :=
  ∀ id, among id → first[id.toNat]? = second[id.toNat]?

/-- Evaluation gives one value on both vectors, and with checked arithmetic it stops on both or on
neither. -/
structure EvaluatesAlike (e : Expr) (first second : List Value) : Prop where
  value : e.evaluate first = e.evaluate second
  checked : e.evaluate? first = e.evaluate? second

theorem mem_inputs_iff (e : Expr) (id : InputId) :
    id ∈ e.inputs ↔ ∃ ty value, .input id ty value ∈ e.leaves := by
  have listed (ids : List InputId) : id ∈ ids.foldr insertAscending [] ↔ id ∈ ids := by
    induction ids with
    | nil => rfl
    | cons first rest ih => rw [List.foldr_cons, mem_insertAscending, ih, List.mem_cons]
  rw [inputs, listed, List.mem_filterMap]
  constructor
  · rintro ⟨leaf, member, named⟩
    cases leaf with
    | input other ty value =>
      obtain rfl : other = id := Option.some.inj named
      exact ⟨ty, value, member⟩
    | const => contradiction
  · rintro ⟨ty, value, member⟩
    exact ⟨_, member, rfl⟩

theorem isConcrete_iff_inputs_eq_nil (e : Expr) : e.isConcrete = true ↔ e.inputs = [] := by
  rw [isConcrete_iff, List.eq_nil_iff_forall_not_mem]
  simp only [mem_inputs_iff, not_exists]

/-- A query passes over the leaves from left to right. -/
theorem dependsOn_eq_any (ids : List InputId) (e : Expr) :
    e.dependsOn ids = e.leaves.any fun leaf ↦ leaf.input?.any ids.contains := by
  induction e with
  | input | const => simp [dependsOn, leaves, Leaf.input?]
  | unary op e ty value ih | slice e offset bytes value ih => rw [dependsOn, leaves, ih]
  | binary op l r ty value ihl ihr | compare op l r ty value ihl ihr
  | pointer op l r size value ihl ihr => rw [dependsOn, leaves, List.any_append, ihl, ihr]
  | assemble ty size parts value ih =>
    rw [dependsOn, leaves, doPartsDependOn_eq_any, leavesOfParts_eq_flatMap, List.any_flatMap]
    rw [Bool.eq_iff_iff, List.any_eq_true, List.any_eq_true]
    exact exists_congr fun part ↦ and_congr_right fun member ↦ by rw [ih part member]

theorem dependsOn_iff (ids : List InputId) (e : Expr) :
    e.dependsOn ids = true ↔ ∃ id ∈ e.inputs, id ∈ ids := by
  rw [dependsOn_eq_any, List.any_eq_true]
  simp only [mem_inputs_iff]
  constructor
  · rintro ⟨leaf, member, asked⟩
    cases leaf with
    | input id ty value => exact ⟨id, ⟨ty, value, member⟩, by simpa [Leaf.input?] using asked⟩
    | const => contradiction
  · rintro ⟨id, ⟨ty, value, member⟩, asked⟩
    exact ⟨_, member, by simpa [Leaf.input?] using asked⟩

theorem AgreeOn.evaluate_input {among : InputId → Prop} {first second : List Value}
    (agree : AgreeOn among first second) {id : InputId} (seen : among id) (ty : CType)
    (value : Value) :
    evaluate first (.input id ty value) = evaluate second (.input id ty value) := by
  rw [evaluate, evaluate, agree id seen]

/-- Entries at inputs that the expression does not have are not seen. -/
theorem evaluatesAlike {e : Expr} {first second : List Value}
    (agree : AgreeOn (· ∈ e.inputs) first second) : e.EvaluatesAlike first second := by
  have leaves (id : InputId) (ty : CType) (value : Value)
      (member : .input id ty value ∈ e.leaves) :
      evaluate first (.input id ty value) = evaluate second (.input id ty value) :=
    agree.evaluate_input ((mem_inputs_iff e id).mpr ⟨ty, value, member⟩) ty value
  exact ⟨evaluate_congr e leaves, evaluate?_congr e leaves⟩

/-- The queries are exact, and they bound what evaluation sees. -/
theorem evaluate_sees_inputs (e : Expr) :
    (e.isConcrete = true ↔ e.inputs = []) ∧
      (∀ ids : List InputId, e.dependsOn ids = true ↔ ∃ id ∈ e.inputs, id ∈ ids) ∧
      (∀ first second : List Value, AgreeOn (· ∈ e.inputs) first second →
        e.EvaluatesAlike first second) ∧
      (∀ (ids : List InputId) (first second : List Value), e.dependsOn ids = false →
        AgreeOn (· ∉ ids) first second → e.EvaluatesAlike first second) ∧
      (e.isConcrete = true → ∀ first second : List Value, e.EvaluatesAlike first second) ∧
      (∀ (inputs : List Value) (value : Value), e.evaluate? inputs = some value →
        e.evaluate inputs = value) := by
  refine ⟨isConcrete_iff_inputs_eq_nil e, fun ids ↦ dependsOn_iff ids e,
    fun first second agree ↦ evaluatesAlike agree, fun ids first second free agree ↦ ?_,
    fun concrete first second ↦ ?_, fun inputs value ↦ evaluate_of_evaluate?⟩
  · refine evaluatesAlike fun id seen ↦ agree id fun asked ↦ ?_
    have depends : e.dependsOn ids = true := (dependsOn_iff ids e).mpr ⟨id, seen, asked⟩
    rw [free] at depends
    contradiction
  · have none := (isConcrete_iff_inputs_eq_nil e).mp concrete
    refine evaluatesAlike fun id seen ↦ ?_
    rw [none] at seen
    contradiction

/-- An input times the second byte of an input that has no entry. -/
def productExample : Expr :=
  .binary .mul (.input 0 .int 3) (.slice (.input 7 .uint 0x2ff) 1 1 2) .int 6

theorem evaluate_sees_inputs_product :
    productExample.inputs = [0, 7] ∧ productExample.dependsOn [7] = true ∧
      productExample.dependsOn [1, 2] = false ∧ AgreeOn (· ∉ [1, 2]) [5, 9] [5, 1000] ∧
      productExample.EvaluatesAlike [5, 9] [5, 1000] ∧
      productExample.evaluate? [5, 9] = some 10 := by
  have free : productExample.dependsOn [1, 2] = false := by decide
  have agree : AgreeOn (· ∉ [1, 2]) [5, 9] [5, 1000] := by
    intro id outside
    match position : id.toNat with
    | 0 => rfl
    | 1 =>
      obtain rfl : id = 1 := BitVec.eq_of_toNat_eq position
      simp at outside
    | _ + 2 => rfl
  exact ⟨by decide, by decide, free, agree,
    (evaluate_sees_inputs productExample).2.2.2.1 _ _ _ free agree, by decide⟩

end Concolic.Expr
