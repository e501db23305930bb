import Concolic.Proofs.Smt.Script

/-!
# Encoded expressions as text

An encoded expression is printed as text that is read back as a term of the right sort in the
context that the encoding leaves behind, and the value of that term is the value of the expression.
-/

namespace Concolic.Smt

/-- There are inputs that give every constant the number zero. -/
theorem exists_assigns (leaves : List Leaf) : ∃ inputs, Assigns (fun _ ↦ 0) inputs leaves := by
  refine ⟨List.replicate (2 ^ 32) 0, fun id ty value _ ↦ ?_⟩
  have inside : id.toNat < 2 ^ 32 := id.isLt
  rw [Expr.evaluate, List.getElem?_replicate, if_pos inside]
  simp only [CType.normalize_zero]

/-- The encoder succeeds, and the text of its term is read as a term of the sort that means what is
said as soon as the constants have the bits of the inputs. -/
def Encodes (encoder : Encoder Term) (context : Context) (leaves : List Leaf) (sort : TermSort)
    (meaning : List Value → Meaning) : Prop :=
  ∃ term declared, encoder.runIn context = (.ok term, declared) ∧
    Term.read term.text = some term ∧
    term.sort declared.sorts = some sort ∧
    ∀ inputs assignment, Assigns assignment inputs leaves →
      term.meaning (declared.environment assignment) = some (meaning inputs)

/-- The encoder gives one term, whatever is declared.  Its text is read as that term, and the term
has the sort wherever the declared inputs have the widths of their types. -/
def Encoder.Sorted (encoder : Encoder Term) (leaves : List Leaf) (sort : TermSort) : Prop :=
  ∃ term, encoder.Emits term leaves ∧ Term.read term.text = some term ∧
    ∀ context : Context, context.Admits leaves →
      term.sort (context.withLeaves leaves).sorts = some sort

/-- What is denoted on leaves that agree on their types has a sort. -/
theorem Denotes.sorted {encoder : Encoder Term} {leaves : List Leaf}
    {meaning : List Value → Meaning} {sort : TermSort}
    (denotes : Denotes encoder leaves meaning)
    (ofSort : ∀ inputs, (meaning inputs).sort = sort)
    (typed : ∀ id ty other value second,
      .input id ty value ∈ leaves → .input id other second ∈ leaves → ty = other) :
    encoder.Sorted leaves sort := by
  obtain ⟨term, emits, means⟩ := denotes
  obtain ⟨zeros, assigned⟩ := exists_assigns leaves
  have sortIn (start : Context) (starts : start.Admits leaves) :
      term.sort (start.withLeaves leaves).sorts = some sort := by
    rw [Term.sort_eq_map_meaning ((start.withLeaves leaves).sorts_eq_map_environment fun _ ↦ 0),
      means _ zeros (Context.suits_environment typed starts assigned), ← ofSort zeros]
    rfl
  refine ⟨term, emits, ?_, sortIn⟩
  -- a context may declare other constants, so the text is read with the sorts of one that does not
  have onlyInputs : Term.OnlyInputs (Context.withLeaves {} leaves).sorts := by
    refine Context.onlyInputs_sorts fun entry present ↦ ?_
    rcases Context.declared_withLeaves present with none | ⟨id, ty, value, member, same⟩
    · simp at none
    · exact ⟨id, congrArg Prod.fst same⟩
  have empty : Context.Admits {} leaves := by
    intro id ty value member width present
    simp at present
  refine Term.read_text onlyInputs ?_
  rw [sortIn {} empty]
  rfl

/-- What is denoted on leaves that agree on their types is encoded in every context that agrees
with them. -/
theorem Denotes.encodes {encoder : Encoder Term} {leaves : List Leaf}
    {meaning : List Value → Meaning} {sort : TermSort}
    (denotes : Denotes encoder leaves meaning)
    (ofSort : ∀ inputs, (meaning inputs).sort = sort)
    (typed : ∀ id ty other value second,
      .input id ty value ∈ leaves → .input id other second ∈ leaves → ty = other)
    {context : Context} (admits : context.Admits leaves) :
    Encodes encoder context leaves sort meaning := by
  obtain ⟨term, emits, text, sorted⟩ := denotes.sorted ofSort typed
  obtain ⟨other, emitsOther, means⟩ := denotes
  have same : other = term := by
    have both := (emitsOther context).symm.trans (emits context)
    exact Except.ok.inj (congrArg Prod.fst both)
  subst same
  exact ⟨other, _, emits context, text, sorted context admits, fun inputs assignment assigns ↦
    means _ inputs (Context.suits_environment typed admits assigns)⟩

/-- The encoding of a well-formed scalar expression never fails.  Its text is read as a bit-vector
of the width of the expression that has the low bits of the value of the expression, and as a
condition it is read as a truth value that says whether the expression is different from zero. -/
theorem encodeExpr_agrees_with_evaluate {e : Expr} (wellFormed : Expr.ScalarWellFormed e)
    {context : Context} (admits : context.Admits e.leaves) :
    Encodes (encodeExpr e) context e.leaves (.word e.bits)
        (fun inputs ↦ .word e.bits ((e.evaluate inputs).setWidth e.bits)) ∧
      Encodes (encodeCondition e) context e.leaves .truth
        (fun inputs ↦ .truth (e.evaluate inputs != 0)) := by
  have agrees := agrees_of_encodable wellFormed.nodes
  constructor
  · exact agrees.word.encodes (fun _ ↦ rfl) wellFormed.typed admits
  · exact agrees.condition.encodes (fun _ ↦ rfl) wellFormed.typed admits

/-- A signed quotient by three bytes of another input. -/
def quotientExample : Expr :=
  .binary .sdiv (.input 0 .short 7) (.slice (.input 1 .uint 3) 1 3 0) .int 0xffffffffffffffff

theorem encodeExpr_agrees_with_evaluate_quotient :
    Expr.ScalarWellFormed quotientExample ∧
      Context.Admits ⟨[(.input 1, 32)]⟩ quotientExample.leaves ∧
      Encodes (encodeExpr quotientExample) ⟨[(.input 1, 32)]⟩ quotientExample.leaves (.word 32)
        (fun inputs ↦ .word 32 ((quotientExample.evaluate inputs).setWidth 32)) ∧
      Encodes (encodeCondition quotientExample) ⟨[(.input 1, 32)]⟩ quotientExample.leaves .truth
        (fun inputs ↦ .truth (quotientExample.evaluate inputs != 0)) := by
  have leaves : quotientExample.leaves = [.input 0 .short 7, .input 1 .uint 3] := rfl
  have wellFormed : Expr.ScalarWellFormed quotientExample := by
    constructor
    · refine (Expr.everywhere_binary ..).mpr ⟨by decide, ?_, ?_⟩
      · exact (Expr.everywhere_leaf rfl).mpr (by decide)
      · exact (Expr.everywhere_slice ..).mpr
          ⟨by decide, (Expr.everywhere_leaf rfl).mpr (by decide)⟩
    · intro id ty other value second first later
      rw [leaves] at first later
      simp only [List.mem_cons, Leaf.input.injEq, List.not_mem_nil, or_false] at first later
      rcases first with ⟨rfl, rfl, -⟩ | ⟨rfl, rfl, -⟩ <;> simp_all
  have admits : Context.Admits ⟨[(.input 1, 32)]⟩ quotientExample.leaves := by
    intro id ty value member width present
    rw [leaves] at member
    simp_all [CType.bits, CType.size]
  exact ⟨wellFormed, admits, encodeExpr_agrees_with_evaluate wellFormed admits⟩

end Concolic.Smt
