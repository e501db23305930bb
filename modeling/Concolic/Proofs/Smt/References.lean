import Concolic.Proofs.Smt.Declarations
import Concolic.Proofs.Smt.Symbols

/-!
# References to constants

An encoding refers to the constants of the leaves of an expression from left to right, whatever
else it is asked for, and its term mentions these and no others.  References to what is declared
change nothing, so that a context grows by the first reference to each constant that it lacks.
This needs nothing of an expression but that it has a term.
-/

namespace Concolic

open Smt

/-- The constant of an input, at the width of its type. -/
def Leaf.reference? : Leaf → Option (Symbol × Nat)
  | .input id ty _ => some (.input id, ty.bits)
  | .const .. => none

namespace Expr

/-- The constants that the leaves of an expression refer to, from left to right. -/
def references (e : Expr) : List (Symbol × Nat) :=
  e.leaves.filterMap Leaf.reference?

theorem references_append {l r e : Expr} (both : e.leaves = l.leaves ++ r.leaves) :
    e.references = l.references ++ r.references := by
  rw [references, both, List.filterMap_append, references, references]

theorem references_assemble (ty : CType) (size : BitVec 32) (parts : List (BitVec 32 × Expr))
    (value : Value) :
    (assemble ty size parts value).references = parts.flatMap fun part ↦ part.2.references := by
  rw [references, leaves, leavesOfParts_eq_flatMap, List.filterMap_flatMap]
  rfl

theorem mem_references_iff {e : Expr} {name : Symbol} {width : Nat} :
    (name, width) ∈ e.references ↔
      ∃ id ty value, .input id ty value ∈ e.leaves ∧ name = .input id ∧ width = ty.bits := by
  rw [references, List.mem_filterMap]
  constructor
  · rintro ⟨_ | _, member, same⟩
    · obtain ⟨rfl, rfl⟩ := Prod.mk.inj (Option.some.inj same)
      exact ⟨_, _, _, member, rfl, rfl⟩
    · cases same
  · rintro ⟨id, ty, value, member, rfl, rfl⟩
    exact ⟨_, member, rfl⟩

end Expr

namespace Smt

/-! ## Contexts -/

namespace Context

variable {context : Context} {references : List (Symbol × Nat)} {name : Symbol}

/-- Refers to constants one after the other. -/
def refer (context : Context) (references : List (Symbol × Nat)) : Context :=
  references.foldl (fun context reference ↦ context.reference reference.1 reference.2) context

/-- The first reference to each constant that is not declared. -/
def missing (context : Context) (references : List (Symbol × Nat)) : List (Symbol × Nat) :=
  (references.filter fun reference ↦ !context.declares reference.1).eraseDupsBy
    fun later first ↦ later.1 == first.1

theorem refer_cons (context : Context) (first : Symbol × Nat) (rest : List (Symbol × Nat)) :
    context.refer (first :: rest) = (context.reference first.1 first.2).refer rest :=
  rfl

theorem refer_append (context : Context) (first second : List (Symbol × Nat)) :
    context.refer (first ++ second) = (context.refer first).refer second :=
  List.foldl_append

theorem reference_of_not_declares {bits : Nat} (unknown : context.declares name = false) :
    context.reference name bits = context.declare name bits := by
  rw [reference, unknown, if_neg Bool.false_ne_true]

theorem declares_reference_eq (context : Context) (bits : Nat) (other : Symbol) :
    (context.reference name bits).declares other = (context.declares other || other == name) := by
  unfold reference
  split
  · next known =>
    by_cases same : other = name
    · rw [same, known, Bool.true_or]
    · simp [same]
  · simp [declare, declares, Bool.beq_comm]

theorem declares_refer_iff :
    (context.refer references).declares name = true ↔
      context.declares name = true ∨ ∃ width, (name, width) ∈ references := by
  induction references generalizing context with
  | nil => simp [refer]
  | cons first rest ih =>
    rw [refer_cons, ih, declares_reference_eq]
    simp [Prod.ext_iff, exists_or, or_assoc]

theorem missing_cons_of_declares {first : Symbol × Nat}
    (known : context.declares first.1 = true) :
    context.missing (first :: references) = context.missing references := by
  rw [missing, List.filter_cons_of_neg (by simp [known]), missing]

/-- Once a constant is declared, no later reference to it is missing. -/
theorem missing_cons_of_not_declares {first : Symbol × Nat}
    (unknown : context.declares first.1 = false) :
    context.missing (first :: references) =
      first :: (context.declare first.1 first.2).missing references := by
  have still (later : Symbol × Nat) : (context.declare first.1 first.2).declares later.1 =
      (context.declares later.1 || later.1 == first.1) := by
    rw [← reference_of_not_declares unknown, declares_reference_eq]
  rw [missing, List.filter_cons_of_pos (by simp [unknown]), List.eraseDupsBy_cons,
    List.filter_filter, missing]
  congr 2
  refine List.filter_congr fun later _ ↦ ?_
  rw [still, Bool.eq_iff_iff]
  simp [and_comm]

/-- References add what is missing, in order, and nothing else. -/
theorem declared_refer (context : Context) (references : List (Symbol × Nat)) :
    (context.refer references).declared = context.declared ++ context.missing references := by
  induction references generalizing context with
  | nil => exact (List.append_nil _).symm
  | cons first rest ih =>
    rw [refer_cons, ih]
    cases known : context.declares first.1 with
    | true => rw [reference_of_declares _ _ _ known, missing_cons_of_declares known]
    | false =>
      rw [missing_cons_of_not_declares known, reference_of_not_declares known, declare,
        List.append_assoc, List.singleton_append]
theorem declaresOnce_refer (once : context.DeclaresOnce) (references : List (Symbol × Nat)) :
    (context.refer references).DeclaresOnce := by
  induction references generalizing context with
  | nil => exact once
  | cons first rest ih => exact ih (declaresOnce_reference once first.1 first.2)

end Context

/-! ## Encoders -/

namespace Encoder

variable {α β γ : Type} {encoder : Encoder α} {other : Encoder β} {symbols : α → List Symbol}
  {symbols' : β → List Symbol} {symbols'' : γ → List Symbol}
  {references references' : List (Symbol × Nat)}

/-- Where the encoder gives a result, it has referred to the constants in order, and the result
mentions these and no others. -/
def Mentions (encoder : Encoder α) (symbols : α → List Symbol)
    (references : List (Symbol × Nat)) : Prop :=
  ∀ context result declared, encoder.runIn context = (.ok result, declared) →
    declared = context.refer references ∧
      ∀ name, name ∈ symbols result ↔ ∃ width, (name, width) ∈ references

theorem mentions_pure {result : α} (none : symbols result = []) :
    (pure result : Encoder α).Mentions symbols [] := by
  intro context value declared run
  obtain ⟨same, rfl⟩ := Prod.mk.inj run
  obtain rfl := Except.ok.inj same
  exact ⟨rfl, by simp [none]⟩

theorem mentions_throw (fault : Fault) :
    (throw fault : Encoder α).Mentions symbols references := by
  intro context value declared run
  cases run

theorem mentions_constant (name : Symbol) (bits : Nat) :
    (constant name bits).Mentions Term.symbols [(name, bits)] := by
  intro context value declared run
  obtain ⟨same, rfl⟩ := Prod.mk.inj run
  obtain rfl := Except.ok.inj same
  exact ⟨rfl, by simp [Term.symbols]⟩

theorem runIn_bind_ok {next : α → Encoder β} {context declared : Context} {result : β}
    (run : (encoder >>= next).runIn context = (.ok result, declared)) :
    ∃ value between, encoder.runIn context = (.ok value, between) ∧
      (next value).runIn between = (.ok result, declared) := by
  rw [runIn_bind] at run
  rcases here : encoder.runIn context with ⟨fault | value, between⟩
  · rw [here] at run
    cases run
  · rw [here] at run
    exact ⟨value, between, rfl, run⟩

theorem Mentions.map {f : α → β} (here : encoder.Mentions symbols references)
    (keeps : ∀ value name, name ∈ symbols' (f value) ↔ name ∈ symbols value) :
    (do return f (← encoder) : Encoder β).Mentions symbols' references := by
  intro context result declared run
  obtain ⟨value, between, first, last⟩ := runIn_bind_ok run
  obtain ⟨same, rfl⟩ := Prod.mk.inj last
  obtain rfl := Except.ok.inj same
  obtain ⟨referred, mentioned⟩ := here context value between first
  exact ⟨referred, fun name ↦ (keeps value name).trans (mentioned name)⟩

theorem Mentions.map₂ {f : α → β → γ} (first : encoder.Mentions symbols references)
    (second : other.Mentions symbols' references')
    (joins : ∀ left right name,
      name ∈ symbols'' (f left right) ↔ name ∈ symbols left ∨ name ∈ symbols' right) :
    (do
      let left ← encoder
      let right ← other
      return f left right : Encoder γ).Mentions symbols'' (references ++ references') := by
  intro context result declared run
  obtain ⟨left, between, runFirst, later⟩ := runIn_bind_ok run
  obtain ⟨right, ended, runSecond, last⟩ := runIn_bind_ok later
  obtain ⟨same, rfl⟩ := Prod.mk.inj last
  obtain rfl := Except.ok.inj same
  obtain ⟨rfl, mentioned⟩ := first context left between runFirst
  obtain ⟨rfl, mentioned'⟩ := second _ right ended runSecond
  refine ⟨(Context.refer_append ..).symm, fun name ↦ ?_⟩
  rw [joins, mentioned, mentioned', ← exists_or]
  simp only [List.mem_append]

/-- Terms one after the other. -/
theorem mentions_mapM {items : List α} {encode : α → Encoder Term}
    {referencesOf : α → List (Symbol × Nat)}
    (each : ∀ item ∈ items, (encode item).Mentions Term.symbols (referencesOf item)) :
    (items.mapM encode).Mentions Term.symbolsOf (items.flatMap referencesOf) := by
  induction items with
  | nil => exact mentions_pure rfl
  | cons item rest ih =>
    obtain ⟨here, later⟩ := List.forall_mem_cons.mp each
    rw [List.mapM_cons, List.flatMap_cons]
    refine here.map₂ (ih later) fun term terms name ↦ ?_
    rw [Term.symbolsOf, List.mem_append]

end Encoder

/-! ## Expressions -/

/-- Both encodings refer to the constants in the same order. -/
structure Encoding.Mentions (encoding : Encoding) (references : List (Symbol × Nat)) : Prop where
  word : encoding.word.Mentions Term.symbols references
  condition : encoding.condition.Mentions Term.symbols references

namespace Encoding

variable {encoding : Encoding} {encoder : Encoder Term} {references : List (Symbol × Nat)}

theorem mentions_ofWord (word : encoder.Mentions Term.symbols references) (bits : Nat) :
    (ofWord encoder bits).Mentions references :=
  ⟨word, word.map fun term name ↦ by rw [Term.symbols_isNonzero]⟩

theorem mentions_ofCondition (condition : encoder.Mentions Term.symbols references) (bits : Nat) :
    (ofCondition encoder bits).Mentions references :=
  ⟨condition.map fun term name ↦ by rw [Term.symbols_ofCondition], condition⟩

theorem Mentions.resized (mentions : encoding.Mentions references) (e : Expr) (bits : Nat) :
    (encoding.resized e bits).Mentions Term.symbols references :=
  mentions.word.map fun term name ↦ by rw [Term.symbols_resize]

end Encoding

open Encoder Encoding

/-- The pieces of an assembled value, with the bytes of the value between them. -/
theorem mentions_encodePieces (value : Value) (size : Nat) {parts : List (BitVec 32 × Expr)}
    (each : ∀ part ∈ parts, (encoding part.2).Mentions part.2.references) (first : Nat) :
    (encodePieces value size parts first).Mentions Term.symbolsOf
      (parts.flatMap fun part ↦ part.2.references) := by
  induction parts generalizing first with
  | nil =>
    refine mentions_pure ?_
    split <;> simp [Term.symbolsOf]
  | cons part rest ih =>
    obtain ⟨here, later⟩ := List.forall_mem_cons.mp each
    rw [List.flatMap_cons]
    refine here.word.map₂ (ih later _) fun piece above name ↦ ?_
    split <;> simp [Term.symbolsOf]

/-- Every encoding of an expression refers to its inputs from left to right. -/
theorem mentions_encoding (e : Expr) : (encoding e).Mentions e.references := by
  induction e with
  | input id ty value => exact mentions_ofWord (mentions_constant _ _) _
  | const ty value => exact mentions_ofWord (mentions_pure (Term.symbols_constant ..)) _
  | unary op e ty value ih =>
    cases op with
    | negate | bitwiseNot =>
      exact mentions_ofWord ((ih.resized e _).map fun term name ↦ by rw [Term.symbols]) _
    | logicalNot =>
      exact mentions_ofCondition (ih.condition.map fun term name ↦ by rw [Term.symbols]) _
    | unsignedCast | signedCast =>
      exact mentions_ofWord (ih.word.map fun term name ↦ by rw [Term.symbols_resize]) _
  | binary op l r ty value ihl ihr =>
    rw [Expr.references_append rfl]
    refine mentions_ofWord ((ihl.resized l _).map₂ (ihr.resized r _) fun lhs rhs name ↦ ?_) _
    rw [Term.symbols, List.mem_append]
  | compare op l r ty value ihl ihr =>
    rw [Expr.references_append rfl]
    exact mentions_ofCondition ((ihl.resized l _).map₂ (ihr.resized r _) fun lhs rhs name ↦
      mem_symbols_comparison name op lhs rhs) _
  | pointer op l r size value ihl ihr =>
    rw [Expr.references_append rfl]
    exact mentions_ofWord ((ihl.resized l _).map₂ (ihr.resized r _) fun lhs rhs name ↦
      mem_symbols_pointerArithmetic name op lhs rhs size) _
  | slice e offset bytes value ih =>
    exact mentions_ofWord (ih.word.map fun term name ↦ by rw [Term.symbols]) _
  | assemble ty size parts value ih =>
    rw [Expr.references_assemble]
    refine mentions_ofWord ?_ _
    split
    · exact mentions_throw _
    · refine (mentions_encodePieces value size.toNat ih 0).map fun pieces name ↦ ?_
      rw [Term.mem_symbols_stack, Term.symbolsOf_eq_flatMap]

end Smt

end Concolic
