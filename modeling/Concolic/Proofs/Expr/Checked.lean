import Concolic.Proofs.Expr.Everywhere

/-!
# Evaluation with checked arithmetic

A machine counts the bits of nodes in words of 32 bits and shifts the bytes of parts within words
of 64 bits.  `evaluate?` gives no value where a count of bits does not fit or a part lies beyond
the eighth byte; operators have a result on all words and need no check.  A value that it gives is
the value of `evaluate`, and whether it gives one says nothing about the inputs.
-/

namespace Concolic.Expr

/-- Counts of bits stay below this number. -/
def countLimit : Nat := 0x100000000

/-- Goes on only where the condition holds. -/
def check (holds : Bool) : Option Unit :=
  if holds then some () else none

theorem check_eq_some {holds : Bool} : check holds = some () ↔ holds = true := by
  cases holds <;> simp [check]

mutual

def evaluate? (inputs : List Value) : Expr → Option Value
  | .input id ty value => some (evaluate inputs (.input id ty value))
  | .const _ value => some value
  | .unary op e ty _ => do
    check (e.bits < countLimit)
    return op.apply ty e.bits (← evaluate? inputs e)
  | .binary op l r ty _ => return op.apply ty (← evaluate? inputs l) (← evaluate? inputs r)
  | .compare op l r ty _ => do
    check (max l.bits r.bits < countLimit)
    let lhs ← evaluate? inputs l
    let rhs ← evaluate? inputs r
    return ty.normalize (flag (op.apply (max l.bits r.bits) lhs rhs))
  | .pointer op l r size _ => return op.apply size (← evaluate? inputs l) (← evaluate? inputs r)
  | .slice e offset bytes _ => do
    check (8 * max offset.toNat bytes.toNat < countLimit)
    return byteRange (← evaluate? inputs e) offset.toNat bytes.toNat
  | .assemble ty _ parts value =>
    -- the parts of an aggregate are not looked at
    if ty.isStruct then some value else ty.normalize <$> evaluateParts? inputs parts value

def evaluateParts? (inputs : List Value) : List (BitVec 32 × Expr) → Value → Option Value
  | [], base => some base
  | (offset, e) :: rest, base => do
    check (offset.toNat < 8 ∧ e.bits < countLimit)
    let part ← evaluate? inputs e
    evaluateParts? inputs rest (overlay base offset.toNat e.bits part)

end

/-! ## Values of nodes -/

/-- Parts laid over the bytes of a value, if their bytes can be counted and shifted into place. -/
def layParts? (child : Expr → Option Value) : List (BitVec 32 × Expr) → Value → Option Value
  | [], base => some base
  | (offset, e) :: rest, base => do
    check (offset.toNat < 8 ∧ e.bits < countLimit)
    let part ← child e
    layParts? child rest (overlay base offset.toNat e.bits part)

/-- The value of a node whose children have the given values, if they have any. -/
def nodeValue? (child : Expr → Option Value) : Expr → Option Value
  | .input _ _ value => some value
  | .const _ value => some value
  | .unary op e ty _ => do
    check (e.bits < countLimit)
    return op.apply ty e.bits (← child e)
  | .binary op l r ty _ => return op.apply ty (← child l) (← child r)
  | .compare op l r ty _ => do
    check (max l.bits r.bits < countLimit)
    let lhs ← child l
    let rhs ← child r
    return ty.normalize (flag (op.apply (max l.bits r.bits) lhs rhs))
  | .pointer op l r size _ => return op.apply size (← child l) (← child r)
  | .slice e offset bytes _ => do
    check (8 * max offset.toNat bytes.toNat < countLimit)
    return byteRange (← child e) offset.toNat bytes.toNat
  | .assemble ty _ parts value =>
    if ty.isStruct then some value else ty.normalize <$> layParts? child parts value

theorem evaluateParts?_eq_layParts? (inputs : List Value) (parts : List (BitVec 32 × Expr))
    (base : Value) :
    evaluateParts? inputs parts base = layParts? (evaluate? inputs) parts base := by
  induction parts generalizing base with
  | nil => rfl
  | cons part rest ih =>
    rw [evaluateParts?, layParts?]
    exact bind_congr fun _ ↦ bind_congr fun _ ↦ ih _

theorem evaluate?_eq_nodeValue? (inputs : List Value) {e : Expr} (inner : e.isInput = false) :
    e.evaluate? inputs = e.nodeValue? (evaluate? inputs) := by
  cases e with
  | input => contradiction
  | assemble ty size parts value => rw [evaluate?, nodeValue?, evaluateParts?_eq_layParts?]
  | _ => rfl

theorem layParts?_congr {first second : Expr → Option Value} {parts : List (BitVec 32 × Expr)}
    (agree : ∀ part ∈ parts, first part.2 = second part.2) (base : Value) :
    layParts? first parts base = layParts? second parts base := by
  induction parts generalizing base with
  | nil => rfl
  | cons part rest ih =>
    obtain ⟨here, later⟩ := List.forall_mem_cons.mp agree
    rw [layParts?, layParts?, here]
    exact bind_congr fun _ ↦ bind_congr fun _ ↦ ih later _

theorem nodeValue?_congr {first second : Expr → Option Value} (e : Expr)
    (agree : ∀ child ∈ e.children, first child = second child) :
    e.nodeValue? first = e.nodeValue? second := by
  cases e with
  | input | const => rfl
  | unary | slice | binary | compare | pointer => simp_all [children, nodeValue?]
  | assemble ty size parts value =>
    rw [nodeValue?, nodeValue?,
      layParts?_congr fun part member ↦ agree part.2 (List.mem_map_of_mem member)]

theorem layParts_of_layParts? {child? : Expr → Option Value} {child : Expr → Value}
    {parts : List (BitVec 32 × Expr)} {base result : Value}
    (sound : ∀ part ∈ parts, ∀ value, child? part.2 = some value → child part.2 = value)
    (laid : layParts? child? parts base = some result) : layParts child parts base = result := by
  induction parts generalizing base with
  | nil => exact Option.some.inj laid
  | cons part rest ih =>
    obtain ⟨here, later⟩ := List.forall_mem_cons.mp sound
    obtain ⟨-, -, checked⟩ := Option.bind_eq_some_iff.mp laid
    obtain ⟨first, below, above⟩ := Option.bind_eq_some_iff.mp checked
    rw [layParts, List.foldl_cons, here first below]
    exact ih later above

/-- Arithmetic that fits gives the value of the node. -/
theorem nodeValue_of_nodeValue? {child? : Expr → Option Value} {child : Expr → Value} {e : Expr}
    {value : Value} (sound : ∀ inner ∈ e.children, ∀ value, child? inner = some value →
      child inner = value) (made : e.nodeValue? child? = some value) :
    e.nodeValue child = value := by
  cases e with
  | input | const => exact Option.some.inj made
  | unary | slice =>
    obtain ⟨-, -, checked⟩ := Option.bind_eq_some_iff.mp made
    obtain ⟨operand, below, same⟩ := Option.bind_eq_some_iff.mp checked
    rw [nodeValue, sound _ (by simp [children]) operand below, Option.some.inj same]
  | binary | pointer =>
    obtain ⟨lhs, left, later⟩ := Option.bind_eq_some_iff.mp made
    obtain ⟨rhs, right, same⟩ := Option.bind_eq_some_iff.mp later
    rw [nodeValue, sound _ (by simp [children]) lhs left, sound _ (by simp [children]) rhs right,
      Option.some.inj same]
  | compare =>
    obtain ⟨-, -, checked⟩ := Option.bind_eq_some_iff.mp made
    obtain ⟨lhs, left, later⟩ := Option.bind_eq_some_iff.mp checked
    obtain ⟨rhs, right, same⟩ := Option.bind_eq_some_iff.mp later
    rw [nodeValue, sound _ (by simp [children]) lhs left, sound _ (by simp [children]) rhs right,
      Option.some.inj same]
  | assemble ty size parts recorded =>
    rw [nodeValue?] at made
    rw [nodeValue]
    split at made
    · next struct => rw [if_pos struct, Option.some.inj made]
    · next scalar =>
      obtain ⟨result, laid, rfl⟩ := Option.map_eq_some_iff.mp made
      rw [if_neg scalar, layParts_of_layParts?
        (fun part member ↦ sound part.2 (List.mem_map_of_mem member)) laid]

/-- Arithmetic that fits gives the value of evaluation. -/
theorem evaluate_of_evaluate? {inputs : List Value} {e : Expr} {value : Value}
    (evaluated : e.evaluate? inputs = some value) : e.evaluate inputs = value := by
  induction e using childInduction generalizing value with
  | node e ih =>
    by_cases inner : e.isInput
    · cases e with
      | input => exact Option.some.inj evaluated
      | _ => contradiction
    · rw [Bool.not_eq_true] at inner
      rw [evaluate?_eq_nodeValue? inputs inner] at evaluated
      rw [evaluate_eq_nodeValue inputs inner]
      exact nodeValue_of_nodeValue? (fun child member value ↦ ih child member) evaluated

/-- Checked arithmetic gives the value of the expression. -/
def Evaluates (e : Expr) (inputs : List Value) : Prop :=
  e.evaluate? inputs = some (e.evaluate inputs)

instance (e : Expr) (inputs : List Value) : Decidable (e.Evaluates inputs) :=
  inferInstanceAs (Decidable (_ = _))

/-- The bits of the node can be counted. -/
def Counted (e : Expr) : Prop :=
  e.bits < countLimit

instance (e : Expr) : Decidable e.Counted :=
  inferInstanceAs (Decidable (_ < _))

section Evaluates

variable {inputs : List Value} {e : Expr}

theorem evaluates_of_evaluate? {value : Value} (evaluated : e.evaluate? inputs = some value) :
    e.Evaluates inputs := by
  rw [Evaluates, evaluated, evaluate_of_evaluate? evaluated]

theorem evaluates_slice (offset bytes : BitVec 32) (value : Value) :
    (slice e offset bytes value).Evaluates inputs ↔
      8 * max offset.toNat bytes.toNat < countLimit ∧ e.Evaluates inputs := by
  constructor
  · intro evaluates
    rw [Evaluates, evaluate?] at evaluates
    obtain ⟨_, counted, checked⟩ := Option.bind_eq_some_iff.mp evaluates
    obtain ⟨whole, below, -⟩ := Option.bind_eq_some_iff.mp checked
    exact ⟨of_decide_eq_true (check_eq_some.mp counted), evaluates_of_evaluate? below⟩
  · rintro ⟨counted, below⟩
    rw [Evaluates, evaluate?, below, check_eq_some.mpr (decide_eq_true counted)]
    rfl

/-- Parts that evaluate are laid over a value if they begin in its bytes. -/
theorem evaluateParts?_of_evaluates {parts : List (BitVec 32 × Expr)}
    (each : ∀ part ∈ parts, part.1.toNat < 8 ∧ part.2.Counted ∧ part.2.Evaluates inputs)
    (base : Value) : evaluateParts? inputs parts base = some (evaluateParts inputs parts base) := by
  induction parts generalizing base with
  | nil => rfl
  | cons part rest ih =>
    obtain ⟨⟨begins, counted, evaluates⟩, later⟩ := List.forall_mem_cons.mp each
    rw [evaluateParts?, evaluates, check_eq_some.mpr (decide_eq_true ⟨begins, counted⟩),
      evaluateParts]
    exact ih later _

end Evaluates

/-- The same entries at all inputs among the leaves give the same value, or none in both cases. -/
theorem evaluate?_congr {inputs others : List Value} (e : Expr)
    (agree : ∀ id ty value, .input id ty value ∈ e.leaves →
      evaluate inputs (.input id ty value) = evaluate others (.input id ty value)) :
    e.evaluate? inputs = e.evaluate? others := by
  induction e using childInduction with
  | node e ih =>
    by_cases inner : e.isInput
    · cases e with
      | input id ty value => exact congrArg some (agree id ty value (by simp [leaves]))
      | _ => contradiction
    · rw [Bool.not_eq_true] at inner
      rw [evaluate?_eq_nodeValue? inputs inner, evaluate?_eq_nodeValue? others inner]
      exact nodeValue?_congr e fun child member ↦ ih child member fun id ty value present ↦
        agree id ty value (mem_leaves_of_child member present)

end Concolic.Expr
