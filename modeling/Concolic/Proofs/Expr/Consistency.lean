import Concolic.Proofs.Expr.Checked

/-!
# Consistency and evaluation

The consistency check looks at every node with the values that are recorded right below it, while
evaluation starts from the inputs.  On inputs that the leaves record, the check accepts exactly the
trees all of whose subtrees evaluate to the values that they record.  So it does with checked
arithmetic, where the check passes only if nothing stops it, and then nothing stops evaluation.
-/

namespace Concolic

/-- An input that has an entry records the conversion of it. -/
def Leaf.IsRecordOf (inputs : List Value) : Leaf → Prop
  | .input id ty value => ∀ entry ∈ inputs[id.toNat]?, value = ty.normalize entry
  | .const .. => True

instance (inputs : List Value) : DecidablePred (Leaf.IsRecordOf inputs)
  | .input id ty value =>
    decidable_of_iff (inputs[id.toNat]?.all (value == ty.normalize ·) = true)
      (by simp [Leaf.IsRecordOf, Option.all_eq_true])
  | .const .. => inferInstanceAs (Decidable True)

namespace Expr

/-! ## The check with checked arithmetic -/

/-- The recorded value follows from those of the children. -/
def agrees? (e : Expr) : Option Bool :=
  (e.nodeValue? fun child ↦ some child.value).map (· == e.value)

/-- The second answer is asked for only where the first is yes. -/
def both? (first second : Option Bool) : Option Bool :=
  first.bind fun holds ↦ if holds then second else some false

mutual

def isConsistent? : Expr → Option Bool
  | .input id ty value => agrees? (.input id ty value)
  | .const ty value => agrees? (.const ty value)
  | .unary op e ty value => both? (agrees? (.unary op e ty value)) (isConsistent? e)
  | .binary op l r ty value =>
    both? (agrees? (.binary op l r ty value)) (both? (isConsistent? l) (isConsistent? r))
  | .compare op l r ty value =>
    both? (agrees? (.compare op l r ty value)) (both? (isConsistent? l) (isConsistent? r))
  | .pointer op l r size value =>
    both? (agrees? (.pointer op l r size value)) (both? (isConsistent? l) (isConsistent? r))
  | .slice e offset bytes value =>
    both? (agrees? (.slice e offset bytes value)) (isConsistent? e)
  | .assemble ty size parts value =>
    both? (agrees? (.assemble ty size parts value)) (arePartsConsistent? parts)

def arePartsConsistent? : List (BitVec 32 × Expr) → Option Bool
  | [] => some true
  | (_, e) :: rest => both? (isConsistent? e) (arePartsConsistent? rest)

end

theorem both?_eq_true_iff (first second : Option Bool) :
    both? first second = some true ↔ first = some true ∧ second = some true := by
  rcases first with _ | _ | _ <;> simp [both?]

theorem agrees?_eq_true_iff (e : Expr) :
    e.agrees? = some true ↔ (e.nodeValue? fun child ↦ some child.value) = some e.value := by
  simp [agrees?]

theorem arePartsConsistent?_eq_true_iff (parts : List (BitVec 32 × Expr)) :
    arePartsConsistent? parts = some true ↔ ∀ part ∈ parts, part.2.isConsistent? = some true := by
  induction parts with
  | nil => simp [arePartsConsistent?]
  | cons part rest ih => rw [arePartsConsistent?, both?_eq_true_iff, ih, List.forall_mem_cons]

theorem isConsistent?_iff_everywhere (e : Expr) :
    e.isConsistent? = some true ↔
      Everywhere (fun node ↦ (node.nodeValue? fun child ↦ some child.value) = some node.value) e := by
  induction e with
  | input | const => rw [isConsistent?, agrees?_eq_true_iff, everywhere_leaf rfl]
  | unary op e ty value ih =>
    rw [everywhere_unary, isConsistent?, both?_eq_true_iff, agrees?_eq_true_iff, ih]
  | slice e offset bytes value ih =>
    rw [everywhere_slice, isConsistent?, both?_eq_true_iff, agrees?_eq_true_iff, ih]
  | binary op l r ty value ihl ihr =>
    rw [everywhere_binary, isConsistent?, both?_eq_true_iff, both?_eq_true_iff,
      agrees?_eq_true_iff, ihl, ihr]
  | compare op l r ty value ihl ihr =>
    rw [everywhere_compare, isConsistent?, both?_eq_true_iff, both?_eq_true_iff,
      agrees?_eq_true_iff, ihl, ihr]
  | pointer op l r size value ihl ihr =>
    rw [everywhere_pointer, isConsistent?, both?_eq_true_iff, both?_eq_true_iff,
      agrees?_eq_true_iff, ihl, ihr]
  | assemble ty size parts value ih =>
    rw [everywhere_assemble, isConsistent?, both?_eq_true_iff, agrees?_eq_true_iff,
      arePartsConsistent?_eq_true_iff]
    exact and_congr_right fun _ ↦ forall₂_congr fun part member ↦ ih part member

/-! ### Answers that are given -/

/-- Whatever is answered is the given answer. -/
def Answers (answer? : Option Bool) (answer : Bool) : Prop :=
  ∀ given, answer? = some given → answer = given

theorem Answers.both {first? second? : Option Bool} {first second : Bool}
    (one : Answers first? first) (two : Answers second? second) :
    Answers (both? first? second?) (first && second) := by
  intro given answered
  rcases first? with _ | _ | _
  · contradiction
  · rw [one false rfl]
    exact Option.some.inj answered
  · rw [one true rfl, two given answered, Bool.true_and]

theorem answers_agrees (e : Expr) : Answers e.agrees? (e.recomputed == e.value) := by
  intro given answered
  obtain ⟨value, made, rfl⟩ := Option.map_eq_some_iff.mp answered
  rw [recomputed_eq_nodeValue, nodeValue_of_nodeValue? (fun _ _ _ ↦ Option.some.inj) made]

/-- The check that nothing stops gives the answer of the check. -/
theorem answers_isConsistent (e : Expr) : Answers e.isConsistent? e.isConsistent := by
  induction e with
  | input id ty value =>
    have own := answers_agrees (.input id ty value)
    rwa [recomputed, Expr.value, beq_self_eq_true] at own
  | const ty value =>
    have own := answers_agrees (.const ty value)
    rwa [recomputed, Expr.value, beq_self_eq_true] at own
  | unary op e ty value ih | slice e offset bytes value ih => exact (answers_agrees _).both ih
  | binary op l r ty value ihl ihr | compare op l r ty value ihl ihr
  | pointer op l r size value ihl ihr =>
    rw [isConsistent, Bool.and_assoc]
    exact (answers_agrees _).both (ihl.both ihr)
  | assemble ty size parts value ih =>
    have each : Answers (arePartsConsistent? parts) (arePartsConsistent parts) := by
      induction parts with
      | nil => exact fun given answered ↦ Option.some.inj answered
      | cons part rest ihRest =>
        obtain ⟨here, later⟩ := List.forall_mem_cons.mp ih
        exact here.both (ihRest later)
    exact (answers_agrees _).both each

/-! ## Recorded inputs -/

/-- The leaves record the entries of the vector. -/
def Records (e : Expr) (inputs : List Value) : Prop :=
  ∀ leaf ∈ e.leaves, leaf.IsRecordOf inputs

instance (e : Expr) (inputs : List Value) : Decidable (e.Records inputs) :=
  inferInstanceAs (Decidable (∀ leaf ∈ e.leaves, leaf.IsRecordOf inputs))

/-- The node is no input, or its recorded value is the conversion of its entry. -/
def Given (inputs : List Value) (e : Expr) : Prop :=
  ∀ id ty value, e = .input id ty value → (Leaf.input id ty value).IsRecordOf inputs

variable {inputs : List Value} {e : Expr}

theorem Records.everywhere (records : e.Records inputs) : Everywhere (Given inputs) e :=
  (everywhere_input_iff e).mpr fun _ _ _ member ↦ records _ member

theorem evaluate_input_of_isRecordOf {id : InputId} {ty : CType} {value : Value}
    (given : (Leaf.input id ty value).IsRecordOf inputs) :
    evaluate inputs (.input id ty value) = value := by
  rw [evaluate]
  split
  · next entry found => exact (given entry found).symm
  · rfl

theorem evaluate_eq_recomputed (given : Given inputs e)
    (below : ∀ child ∈ e.children, child.evaluate inputs = child.value) :
    e.evaluate inputs = e.recomputed := by
  by_cases inner : e.isInput
  · cases e with
    | input id ty value => exact evaluate_input_of_isRecordOf (given id ty value rfl)
    | _ => contradiction
  · rw [Bool.not_eq_true] at inner
    rw [evaluate_eq_nodeValue inputs inner, recomputed_eq_nodeValue, nodeValue_congr e below]

theorem evaluate?_eq_recomputed (given : Given inputs e)
    (below : ∀ child ∈ e.children, child.evaluate? inputs = some child.value) :
    e.evaluate? inputs = e.nodeValue? fun child ↦ some child.value := by
  by_cases inner : e.isInput
  · cases e with
    | input id ty value =>
      exact congrArg some (evaluate_input_of_isRecordOf (given id ty value rfl))
    | _ => contradiction
  · rw [Bool.not_eq_true] at inner
    rw [evaluate?_eq_nodeValue? inputs inner, nodeValue?_congr e below]

/-- On the recorded inputs the check says yes exactly where every subtree, the tree among them,
evaluates to the value that it records; with checked arithmetic neither is stopped then. -/
theorem isConsistent_iff_evaluates (records : e.Records inputs) :
    (e.isConsistent? = some true ↔
      Everywhere (fun part ↦ part.evaluate? inputs = some part.value) e) ∧
    (e.isConsistent = true ↔ Everywhere (fun part ↦ part.evaluate inputs = part.value) e) ∧
    Answers e.isConsistent? e.isConsistent := by
  have given := records.everywhere
  refine ⟨?_, ?_, answers_isConsistent e⟩
  · rw [isConsistent?_iff_everywhere]
    refine (everywhere_congr_of_children given fun part own below ↦ ?_).symm
    rw [evaluate?_eq_recomputed own below]
  · rw [isConsistent_iff_everywhere]
    refine (everywhere_congr_of_children given fun part own below ↦ ?_).symm
    rw [evaluate_eq_recomputed own below]

/-- A sum of an input and the second byte of another, beside a number two of whose bytes are under
an input of two bytes and one of these under a constant. -/
def regionExample : Expr :=
  .assemble .struct 8
    [(0, .binary .add (.input 0 .int (-2)) (.slice (.input 1 .uint 0x2ff) 1 1 2) .int 0),
      (4, .assemble .uint 4 [(1, .input 2 .ushort 0x0708), (2, .const .uchar 9)] 0x11090844)] 8

theorem isConsistent_iff_evaluates_region :
    regionExample.Records [0x1fffffffe, 0x2ff] ∧ regionExample.isConsistent? = some true ∧
      regionExample.isConsistent = true ∧
      Everywhere (fun part ↦ part.evaluate? [0x1fffffffe, 0x2ff] = some part.value)
        regionExample ∧
      regionExample.evaluate? [0x1fffffffe, 0x2ff] = some 8 := by
  have records : regionExample.Records [0x1fffffffe, 0x2ff] := by decide
  have checked : regionExample.isConsistent? = some true := by decide
  obtain ⟨evaluates, -, answers⟩ := isConsistent_iff_evaluates records
  exact ⟨records, checked, answers true checked, evaluates.mp checked, by decide⟩

-- a region has its size as its value whatever its parts are, and the check looks at the parts
example :
    let region : Expr := .assemble .struct 4 [(0, .unary .negate (.input 0 .int 1) .int 1)] 4
    region.evaluate? [1] = some region.value ∧ region.isConsistent? = some false := by
  decide

end Expr

end Concolic
