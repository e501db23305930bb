import Concolic.Smt.Encode

/-!
# Symbols and their names

Which constants a term mentions, and what they are called.  The builders of terms add none and drop
none.  Inputs are named by their decimal numbers and cells by their hexadecimal addresses, so that
no two of them have the same name.
-/

namespace Concolic.Smt

/-! ## Names -/

theorem digitChar_inj {a b : Nat} (left : a < 16) (right : b < 16)
    (same : a.digitChar = b.digitChar) : a = b := by
  have all : ∀ a < 16, ∀ b < 16, Nat.digitChar a = Nat.digitChar b → a = b := by decide
  exact all a left b right same

section Digits

variable {base : Nat} (large : 1 < base) (small : base ≤ 16)

include large in
/-- The last digit is the remainder, and the others are the digits of the quotient. -/
theorem toDigits_eq_append (number : Nat) :
    Nat.toDigits base number =
      (if number < base then [] else Nat.toDigits base (number / base)) ++
        [(number % base).digitChar] := by
  rw [Nat.toDigits_eq_if large]
  split
  · next single => rw [Nat.mod_eq_of_lt single, List.nil_append]
  · rfl

include large small in
/-- Numbers with the same digits are equal. -/
theorem toDigits_inj {a b : Nat} (same : Nat.toDigits base a = Nat.toDigits base b) : a = b := by
  induction a using Nat.strongRecOn generalizing b with
  | ind a ih =>
    have digit (number : Nat) : number % base < 16 :=
      Nat.lt_of_lt_of_le (Nat.mod_lt number (by omega)) small
    rw [toDigits_eq_append large a, toDigits_eq_append large b] at same
    -- the last digits give the remainders, and the higher digits, by induction, the quotients
    obtain ⟨higher, last⟩ := List.append_inj' same rfl
    have remainders : a % base = b % base :=
      digitChar_inj (digit a) (digit b) (List.singleton_inj.mp last)
    split at higher
    · next short =>
      split at higher
      · next short' => rwa [Nat.mod_eq_of_lt short, Nat.mod_eq_of_lt short'] at remainders
      · exact absurd higher.symm Nat.toDigits_ne_nil
    · next long =>
      split at higher
      · exact absurd higher Nat.toDigits_ne_nil
      · have quotients : a / base = b / base :=
          ih (a / base) (Nat.div_lt_self (by omega) large) higher
        rw [← Nat.div_add_mod a base, ← Nat.div_add_mod b base, quotients, remainders]

end Digits

namespace Symbol

/-- The constant of an input or of a cell. -/
def IsNumbered : Symbol → Prop
  | .input _ | .cell _ => True
  | .named _ => False

theorem toList_text_input (id : InputId) :
    (input id).text.toList = 'x' :: Nat.toDigits 10 id.toNat := by
  have lead : toString "x" = "x" := rfl
  simp [text, lead]

theorem toList_text_cell (address : Address) :
    (cell address).text.toList = 'm' :: Nat.toDigits 16 address.toNat := by
  simp [text, hexDigits]

/-- Inputs and cells that are different have different names. -/
theorem text_inj {first second : Symbol} (left : first.IsNumbered) (right : second.IsNumbered)
    (same : first.text = second.text) : first = second := by
  rw [← String.toList_inj] at same
  cases first with
  | named => cases left
  | input id =>
    cases second with
    | named => cases right
    | cell => simp [toList_text_input, toList_text_cell] at same
    | input other =>
      rw [toList_text_input, toList_text_input, List.cons.injEq] at same
      rw [BitVec.eq_of_toNat_eq (toDigits_inj (by decide) (by decide) same.2)]
  | cell address =>
    cases second with
    | named => cases right
    | input => simp [toList_text_input, toList_text_cell] at same
    | cell other =>
      rw [toList_text_cell, toList_text_cell, List.cons.injEq] at same
      rw [BitVec.eq_of_toNat_eq (toDigits_inj (by decide) (by decide) same.2)]

end Symbol

/-! ## Terms -/

namespace Term

mutual

/-- The constants that a term mentions, from left to right. -/
@[local simp] def symbols : Term → List Symbol
  | .symbol name => [name]
  | .numeral .. | .truth => []
  | .neg term | .not term | .negation term | .zeroExtend _ term | .signExtend _ term
  | .extract _ _ term => symbols term
  | .binary _ lhs rhs | .rel _ lhs rhs | .concat lhs rhs => symbols lhs ++ symbols rhs
  | .conjunction terms => symbolsOf terms
  | .ite cond thenTerm elseTerm => symbols cond ++ symbols thenTerm ++ symbols elseTerm

@[local simp] def symbolsOf : List Term → List Symbol
  | [] => []
  | term :: rest => symbols term ++ symbolsOf rest

end

theorem symbolsOf_eq_flatMap (terms : List Term) : symbolsOf terms = terms.flatMap symbols := by
  induction terms with
  | nil => rfl
  | cons term rest ih => rw [symbolsOf, ih, List.flatMap_cons]

@[simp] theorem symbols_constant (value : Value) (bits : Nat) :
    (constant value bits).symbols = [] := by
  rw [constant, symbols]

@[simp] theorem symbols_filler (value : Value) (first past : Nat) :
    (filler value first past).symbols = [] := by
  rw [filler, symbols_constant]

@[simp] theorem symbols_resize (term : Term) (width target : Nat) (signed : Bool) :
    (term.resize width target signed).symbols = term.symbols := by
  unfold resize
  split
  · rfl
  · split
    · split <;> rw [symbols]
    · rw [symbols]

@[simp] theorem symbols_ofCondition (condition : Term) (bits : Nat) :
    (condition.ofCondition bits).symbols = condition.symbols := by
  simp [ofCondition]

@[simp] theorem symbols_isNonzero (term : Term) (bits : Nat) :
    (term.isNonzero bits).symbols = term.symbols := by
  simp [isNonzero]

/-- A conjunction mentions what its terms do. -/
@[simp] theorem symbols_all (terms : List Term) :
    (all terms).symbols = terms.flatMap symbols := by
  match terms with
  | [] => rfl
  | [term] => simp [all]
  | first :: second :: rest => rw [all, symbols, symbolsOf_eq_flatMap] <;> simp

theorem mem_symbols_foldl_concat (name : Symbol) (pieces : List Term) (lowest : Term) :
    name ∈ (pieces.foldl (fun below piece ↦ .concat piece below) lowest).symbols ↔
      name ∈ lowest.symbols ∨ name ∈ pieces.flatMap symbols := by
  induction pieces generalizing lowest with
  | nil => simp
  | cons piece rest ih =>
    rw [List.foldl_cons, ih, List.flatMap_cons]
    simp only [symbols, List.mem_append]
    grind

/-- Pieces on top of each other mention what each of them does. -/
theorem mem_symbols_stack (name : Symbol) (pieces : List Term) (value : Value) (bits : Nat) :
    name ∈ ((stack pieces).getD (.constant value bits)).symbols ↔
      name ∈ pieces.flatMap symbols := by
  cases pieces with
  | nil => simp [stack]
  | cons lowest rest => simp [stack, mem_symbols_foldl_concat]

end Term

theorem mem_symbols_comparison (name : Symbol) (op : CompareOp) (lhs rhs : Term) :
    name ∈ (comparison op lhs rhs).symbols ↔ name ∈ lhs.symbols ∨ name ∈ rhs.symbols := by
  cases op <;> simp [comparison, Term.symbols, or_comm]

theorem mem_symbols_pointerArithmetic (name : Symbol) (op : PointerOp) (lhs rhs : Term)
    (size : BitVec 64) :
    name ∈ (pointerArithmetic op lhs rhs size).symbols ↔
      name ∈ lhs.symbols ∨ name ∈ rhs.symbols := by
  cases op <;> simp [pointerArithmetic, Term.symbols]

end Concolic.Smt
