import Concolic.Proofs.Smt.Built

/-!
# Truth values in the encoding

The encoding cuts a number that becomes a truth value to eight bits, as if it became a byte, where
evaluation makes 0 or 1 of it.  On inputs where the byte is the truth value at every node, a term
still has the value of its tree, and a model of a constraint goes the way of the constraint.
-/

namespace Concolic

/-- A tree of scalars whose bytes fit, in which every input has one type.  Its nodes may be truth
values. -/
structure Expr.ByteWellFormed (e : Expr) : Prop where
  nodes : Everywhere ByteEncodable e
  typed : ∀ id ty other value second,
    .input id ty value ∈ e.leaves → .input id other second ∈ e.leaves → ty = other

namespace Smt

open Concolic.Expr

/-- The constants have the low bits of the inputs, converted to no type.  An input without an entry
keeps its recorded value. -/
def Supplies (assignment : Symbol → Value) (inputs : List Value) (leaves : List Leaf) : Prop :=
  ∀ id ty value, .input id ty value ∈ leaves →
    (assignment (.input id)).setWidth ty.bits =
      (inputs[id.toNat]?.getD value).setWidth ty.bits

/-- The encoder succeeds, and the text of its term is read as a term of the sort.  On inputs that
meet the condition the term means what is said as soon as the constants have their bits. -/
def EncodesWhere (encoder : Encoder Term) (context : Context) (leaves : List Leaf)
    (sort : TermSort) (condition : List Value → Prop) (meaning : List Value → Meaning) : Prop :=
  ∃ term declared, encoder.runIn context = (.ok term, declared) ∧
    Term.read term.text = some term ∧
    term.sort declared.sorts = some sort ∧
    ∀ inputs assignment, Supplies assignment inputs leaves → condition inputs →
      term.meaning (declared.environment assignment) = some (meaning inputs)

variable {e : Expr} {context : Context} {encoder : Encoder Term} {sort : TermSort}
  {meaning result : List Value → Meaning} {condition : List Value → Prop}

/-- Bytes take the low bits of an input as they are. -/
theorem Supplies.assigns {assignment : Symbol → Value} {inputs : List Value}
    (supplies : Supplies assignment inputs e.leaves) :
    Assigns assignment inputs e.asBytes.leaves := by
  intro id ty value member
  obtain ⟨own, rfl, here⟩ := input_mem_leaves_asBytes member
  rw [CType.bits_asByte, supplies id own value here, evaluate]
  cases inputs[id.toNat]? with
  | none => rfl
  | some entry =>
    have low := CType.setWidth_normalize own.asByte_ne_bool entry
    rw [CType.bits_asByte] at low
    exact low.symm

theorem encodesWhere_of_denotes (wellFormed : e.ByteWellFormed)
    (admits : context.Admits e.leaves) (denotes : Denotes encoder e.asBytes.leaves meaning)
    (ofSort : ∀ inputs, (meaning inputs).sort = sort)
    (same : ∀ inputs, condition inputs → meaning inputs = result inputs) :
    EncodesWhere encoder context e.leaves sort condition result := by
  obtain ⟨term, declared, ran, text, sorted, means⟩ :=
    denotes.encodes ofSort (typed_asBytes wellFormed.typed) (admits_asBytes admits)
  refine ⟨term, declared, ran, text, sorted, fun inputs assignment supplies met ↦ ?_⟩
  rw [means inputs assignment supplies.assigns, same inputs met]

/-- The encoding of a scalar tree with truth values never fails.  On inputs where every truth value
is the byte that it is made of, its term has the low bits of the value of the tree, and the term of
a constraint on the tree is true exactly where evaluation goes the way of the constraint. -/
theorem encodeExpr_agrees_where_bytes_kept (wellFormed : e.ByteWellFormed)
    (admits : context.Admits e.leaves) :
    EncodesWhere (encodeExpr e) context e.leaves (.word e.bits)
        (fun inputs ↦ Everywhere (KeepsByte inputs) e)
        (fun inputs ↦ .word e.bits ((e.evaluate inputs).setWidth e.bits)) ∧
      ∀ branch taken, EncodesWhere (encodeConstraint ⟨branch, e, taken⟩) context e.leaves .truth
        (fun inputs ↦ Everywhere (KeepsByte inputs) e)
        (fun inputs ↦ .truth (Constraint.meets ⟨branch, e, taken⟩ inputs)) := by
  constructor
  · refine encodesWhere_of_denotes wellFormed admits (denotes_word wellFormed.nodes)
      (fun _ ↦ rfl) fun inputs kept ↦ ?_
    rw [evaluate_asBytes kept]
  · intro branch taken
    have denotes : Denotes (encodeConstraint ⟨branch, e, taken⟩) e.asBytes.leaves fun inputs ↦
        .truth (Constraint.meets ⟨branch, e.asBytes, taken⟩ inputs) :=
      denotes_constraint wellFormed.nodes
    refine encodesWhere_of_denotes wellFormed admits denotes (fun _ ↦ rfl) fun inputs kept ↦ ?_
    simp only [Constraint.meets, evaluate_asBytes kept]

/-- A truth value read from an input, and another that an input is cast to. -/
def bothExample : Expr :=
  .binary .and (.input 0 .bool 1) (.unary .unsignedCast (.input 1 .int 1) .bool 1) .bool 1

theorem encodeExpr_agrees_where_bytes_kept_both :
    bothExample.ByteWellFormed ∧ Context.Admits {} bothExample.leaves ∧
      Everywhere (KeepsByte [1, 1]) bothExample ∧
      EncodesWhere (encodeExpr bothExample) {} bothExample.leaves (.word 8)
        (fun inputs ↦ Everywhere (KeepsByte inputs) bothExample)
        (fun inputs ↦ .word 8 ((bothExample.evaluate inputs).setWidth 8)) := by
  have everywhere {condition : Expr → Prop} (whole : condition bothExample)
      (first : condition (.input 0 .bool 1)) (second : condition (.input 1 .int 1))
      (cast : condition (.unary .unsignedCast (.input 1 .int 1) .bool 1)) :
      Everywhere condition bothExample :=
    (everywhere_binary ..).mpr ⟨whole, (everywhere_leaf rfl).mpr first,
      (everywhere_unary ..).mpr ⟨cast, (everywhere_leaf rfl).mpr second⟩⟩
  have leaves : bothExample.leaves = [.input 0 .bool 1, .input 1 .int 1] := rfl
  have wellFormed : bothExample.ByteWellFormed := by
    refine ⟨everywhere (by decide) (by decide) (by decide) (by decide), ?_⟩
    intro id ty other value second first later
    rw [leaves] at first later
    simp only [List.mem_cons, Leaf.input.injEq, List.not_mem_nil, or_false] at first later
    rcases first with ⟨rfl, rfl, -⟩ | ⟨rfl, rfl, -⟩ <;> simp_all
  have admits : Context.Admits {} bothExample.leaves := by
    intro id ty value member width present
    simp at present
  refine ⟨wellFormed, admits, everywhere (by decide) (by decide) (by decide) (by decide), ?_⟩
  exact (encodeExpr_agrees_where_bytes_kept wellFormed admits).1

/-- A number that becomes a truth value. -/
def castExample : Expr :=
  .unary .unsignedCast (.input 0 .int 256) .bool 1

/-- The low eight bits of 256 are zero, and as a truth value it is 1. -/
theorem not_encodeExpr_agrees_cast :
    ¬∀ (e : Expr) (context : Context), e.ByteWellFormed → context.Admits e.leaves →
      EncodesWhere (encodeExpr e) context e.leaves (.word e.bits) (fun _ ↦ True)
        (fun inputs ↦ .word e.bits ((e.evaluate inputs).setWidth e.bits)) := by
  intro claim
  have leaves : castExample.leaves = [.input 0 .int 256] := rfl
  have wellFormed : castExample.ByteWellFormed := by
    refine ⟨(everywhere_unary ..).mpr ⟨by decide, (everywhere_leaf rfl).mpr (by decide)⟩, ?_⟩
    intro id ty other value second first later
    rw [leaves] at first later
    simp_all
  have admits : Context.Admits {} castExample.leaves := by
    intro id ty value member width present
    simp at present
  obtain ⟨term, declared, ran, -, -, means⟩ := claim castExample {} wellFormed admits
  cases ran
  have supplies : Supplies (numbers [256]) [256] castExample.leaves := by
    intro id ty value member
    rw [leaves] at member
    simp_all [numbers]
  exact absurd (means [256] (numbers [256]) supplies trivial) (by decide +kernel)

end Smt

end Concolic
