import Concolic.Proofs.Word.Bytes
import Concolic.Smt.Term

/-!
# Sorts and meaning of solver terms

The standard semantics of the theory of fixed-size bit-vectors.  A term has a sort only where every
operator is applied to operands of the right sorts, and a meaning only where it has a sort: the
sort check looks at the declared sorts of the constants, the meaning also at their values.
-/

namespace Concolic.Smt

inductive TermSort where
  | truth
  | word (bits : Nat)
deriving DecidableEq, Repr

inductive Meaning where
  | truth (value : Bool)
  | word (bits : Nat) (value : BitVec bits)
deriving DecidableEq, Repr

/-- The value of an operator; a quotient by zero has all bits set, a remainder by zero is the
dividend, and a shift by the width or more leaves zeros or copies of the sign. -/
def BitOp.apply {bits : Nat} (op : BitOp) (a b : BitVec bits) : BitVec bits :=
  match op with
  | .add => a + b
  | .sub => a - b
  | .mul => a * b
  | .udiv => a.smtUDiv b
  | .sdiv => a.smtSDiv b
  | .urem => a % b
  | .srem => a.srem b
  | .shl => a <<< b.toNat
  | .lshr => a >>> b.toNat
  | .ashr => a.sshiftRight b.toNat
  | .and => a &&& b
  | .or => a ||| b
  | .xor => a ^^^ b

def BitRel.apply {bits : Nat} (op : BitRel) (a b : BitVec bits) : Bool :=
  match op with
  | .eq => a == b
  | .ult => a.ult b
  | .ule => a.ule b
  | .slt => a.slt b
  | .sle => a.sle b

namespace TermSort

def mapWord (f : Nat → Option TermSort) : TermSort → Option TermSort
  | .word bits => f bits
  | .truth => none

/-- Two words of one width. -/
def zipWords (f : Nat → TermSort) : TermSort → TermSort → Option TermSort
  | .word bits, .word other => if other = bits then some (f bits) else none
  | _, _ => none

end TermSort

namespace Meaning

def sort : Meaning → TermSort
  | .truth _ => .truth
  | .word bits _ => .word bits

@[simp] theorem sort_truth (value : Bool) : (Meaning.truth value).sort = .truth := rfl

@[simp] theorem sort_word (bits : Nat) (value : BitVec bits) :
    (Meaning.word bits value).sort = .word bits := rfl

def mapWord (f : (bits : Nat) → BitVec bits → Option Meaning) : Meaning → Option Meaning
  | .word bits value => f bits value
  | .truth _ => none

/-- Two words of one width. -/
def zipWords (f : (bits : Nat) → BitVec bits → BitVec bits → Meaning) :
    Meaning → Meaning → Option Meaning
  | .word bits value, .word other second =>
    if same : other = bits then some (f bits value (second.cast same)) else none
  | _, _ => none

def mapTruth (f : Bool → Meaning) : Meaning → Option Meaning
  | .truth value => some (f value)
  | .word .. => none

def choose (condition : Meaning) (first second : Meaning) : Option Meaning :=
  match condition with
  | .truth value =>
    if first.sort = second.sort then some (if value then first else second) else none
  | .word .. => none

theorem word_congr {bits other : Nat} (same : bits = other) {a : BitVec bits} {b : BitVec other}
    (value : a.toNat = b.toNat) : Meaning.word bits a = .word other b := by
  subst same
  rw [BitVec.eq_of_toNat_eq value]

end Meaning

abbrev Environment := Symbol → Option Meaning

namespace Term

mutual

/-- The sort of a term over constants of the given sorts. -/
def sort (sorts : Symbol → Option TermSort) : Term → Option TermSort
  | .symbol name => sorts name
  | .numeral value bits =>
    if 0 < bits ∧ value.toNat < 2 ^ bits then some (.word bits) else none
  | .neg term | .not term => (sort sorts term).bind (·.mapWord fun bits ↦ some (.word bits))
  | .binary _ lhs rhs =>
    (sort sorts lhs).bind fun l ↦ (sort sorts rhs).bind (l.zipWords .word)
  | .rel _ lhs rhs =>
    (sort sorts lhs).bind fun l ↦ (sort sorts rhs).bind (l.zipWords fun _ ↦ .truth)
  | .negation term => if sort sorts term = some .truth then some .truth else none
  | .truth => some .truth
  | .conjunction terms =>
    if 2 ≤ terms.length ∧ areTruths sorts terms then some .truth else none
  | .ite cond thenTerm elseTerm =>
    if sort sorts cond = some .truth ∧ sort sorts thenTerm = sort sorts elseTerm then
      sort sorts thenTerm
    else none
  | .zeroExtend more term | .signExtend more term =>
    (sort sorts term).bind (·.mapWord fun bits ↦ some (.word (bits + more)))
  | .extract high low term =>
    (sort sorts term).bind (·.mapWord fun bits ↦
      if low ≤ high ∧ high < bits then some (.word (high - low + 1)) else none)
  | .concat high low =>
    (sort sorts high).bind (·.mapWord fun upper ↦
      (sort sorts low).bind (·.mapWord fun lower ↦ some (.word (upper + lower))))

def areTruths (sorts : Symbol → Option TermSort) : List Term → Bool
  | [] => true
  | term :: rest => sort sorts term = some .truth && areTruths sorts rest

end

mutual

/-- The meaning of a term under values of the constants. -/
def meaning (env : Environment) : Term → Option Meaning
  | .symbol name => env name
  | .numeral value bits =>
    if 0 < bits ∧ value.toNat < 2 ^ bits then some (.word bits (value.setWidth bits)) else none
  | .neg term => (meaning env term).bind (·.mapWord fun bits a ↦ some (.word bits (-a)))
  | .not term => (meaning env term).bind (·.mapWord fun bits a ↦ some (.word bits (~~~a)))
  | .binary op lhs rhs =>
    (meaning env lhs).bind fun l ↦
      (meaning env rhs).bind (l.zipWords fun bits a b ↦ .word bits (op.apply a b))
  | .rel op lhs rhs =>
    (meaning env lhs).bind fun l ↦
      (meaning env rhs).bind (l.zipWords fun _ a b ↦ .truth (op.apply a b))
  | .negation term => (meaning env term).bind (·.mapTruth fun value ↦ .truth !value)
  | .truth => some (.truth true)
  | .conjunction terms =>
    if 2 ≤ terms.length then (conjunctionMeaning env terms).map .truth else none
  | .ite cond thenTerm elseTerm =>
    (meaning env cond).bind fun condition ↦
      (meaning env thenTerm).bind fun first ↦
        (meaning env elseTerm).bind fun second ↦ condition.choose first second
  | .zeroExtend more term =>
    (meaning env term).bind (·.mapWord fun bits a ↦
      some (.word (bits + more) (a.setWidth (bits + more))))
  | .signExtend more term =>
    (meaning env term).bind (·.mapWord fun bits a ↦
      some (.word (bits + more) (a.signExtend (bits + more))))
  | .extract high low term =>
    (meaning env term).bind (·.mapWord fun bits a ↦
      if low ≤ high ∧ high < bits then some (.word (high - low + 1) (a.extractLsb high low))
      else none)
  | .concat high low =>
    (meaning env high).bind (·.mapWord fun upper a ↦
      (meaning env low).bind (·.mapWord fun lower b ↦ some (.word (upper + lower) (a ++ b))))

/-- The conjunction of terms all of which are truth values. -/
def conjunctionMeaning (env : Environment) : List Term → Option Bool
  | [] => some true
  | term :: rest =>
    match meaning env term with
    | some (.truth value) => (conjunctionMeaning env rest).map (value && ·)
    | _ => none

end

/-- Induction on a term, with a hypothesis for every conjunct. -/
@[elab_as_elim]
theorem inductionOn {motive : Term → Prop} (term : Term)
    (symbol : ∀ name, motive (.symbol name))
    (numeral : ∀ value bits, motive (.numeral value bits))
    (neg : ∀ term, motive term → motive (.neg term))
    (not : ∀ term, motive term → motive (.not term))
    (binary : ∀ op lhs rhs, motive lhs → motive rhs → motive (.binary op lhs rhs))
    (rel : ∀ op lhs rhs, motive lhs → motive rhs → motive (.rel op lhs rhs))
    (negation : ∀ term, motive term → motive (.negation term))
    (truth : motive .truth)
    (conjunction : ∀ terms, (∀ term ∈ terms, motive term) → motive (.conjunction terms))
    (ite : ∀ cond thenTerm elseTerm, motive cond → motive thenTerm → motive elseTerm →
      motive (.ite cond thenTerm elseTerm))
    (zeroExtend : ∀ bits term, motive term → motive (.zeroExtend bits term))
    (signExtend : ∀ bits term, motive term → motive (.signExtend bits term))
    (extract : ∀ high low term, motive term → motive (.extract high low term))
    (concat : ∀ high low, motive high → motive low → motive (.concat high low)) : motive term :=
  Term.rec (motive_1 := motive) (motive_2 := fun terms ↦ ∀ term ∈ terms, motive term)
    symbol numeral neg not binary rel negation truth conjunction ite zeroExtend signExtend extract
    concat (by simp) (fun _ _ first rest ↦ by simpa using ⟨first, rest⟩) term

theorem conjunctionMeaning_isSome_eq_areTruths {sorts : Symbol → Option TermSort}
    {env : Environment} (terms : List Term)
    (each : ∀ term ∈ terms, term.sort sorts = (term.meaning env).map Meaning.sort) :
    (conjunctionMeaning env terms).isSome = areTruths sorts terms := by
  induction terms with
  | nil => rfl
  | cons term rest ih =>
    rw [List.forall_mem_cons] at each
    simp only [conjunctionMeaning, areTruths, ← ih each.2, each.1]
    rcases term.meaning env with _ | ⟨value⟩ | ⟨bits, value⟩ <;> simp

/-- A term has a meaning exactly where it has a sort, and of that sort. -/
theorem sort_eq_map_meaning {sorts : Symbol → Option TermSort} {env : Environment}
    (agree : ∀ name, sorts name = (env name).map Meaning.sort) (term : Term) :
    term.sort sorts = (term.meaning env).map Meaning.sort := by
  induction term using inductionOn with
  | symbol name => exact agree name
  | numeral value bits =>
    simp only [sort, meaning]
    split <;> rfl
  | neg term ih | not term ih =>
    simp only [sort, meaning, ih]
    rcases term.meaning env with _ | ⟨value⟩ | ⟨bits, value⟩ <;> rfl
  | binary op lhs rhs ihl ihr | rel op lhs rhs ihl ihr =>
    simp only [sort, meaning, ihl, ihr]
    rcases lhs.meaning env with _ | ⟨value⟩ | ⟨bits, value⟩
    · rfl
    · rcases rhs.meaning env with _ | ⟨second⟩ | ⟨other, second⟩ <;> rfl
    · rcases rhs.meaning env with _ | ⟨second⟩ | ⟨other, second⟩
      · rfl
      · rfl
      · by_cases same : other = bits <;>
          simp [Meaning.sort, Meaning.zipWords, TermSort.zipWords, same]
  | negation term ih =>
    simp only [sort, meaning, ih]
    rcases term.meaning env with _ | ⟨value⟩ | ⟨bits, value⟩ <;> rfl
  | truth => rfl
  | conjunction terms ih =>
    simp only [sort, meaning, ← conjunctionMeaning_isSome_eq_areTruths terms ih]
    by_cases long : 2 ≤ terms.length
    · rcases conjunctionMeaning env terms with _ | value <;> simp [long, Meaning.sort]
    · simp [long]
  | ite cond thenTerm elseTerm ihc iht ihe =>
    simp only [sort, meaning, ihc, iht, ihe]
    rcases cond.meaning env with _ | ⟨value⟩ | ⟨bits, value⟩
    · rfl
    · rcases thenTerm.meaning env with _ | first
      · simp
      · rcases elseTerm.meaning env with _ | second
        · simp
        · by_cases same : first.sort = second.sort
          · cases value <;> simp [Meaning.choose, same]
          · simp [Meaning.choose, same]
    · rcases thenTerm.meaning env with _ | first
      · simp
      · rcases elseTerm.meaning env with _ | second <;> simp [Meaning.choose]
  | zeroExtend more term ih | signExtend more term ih =>
    simp only [sort, meaning, ih]
    rcases term.meaning env with _ | ⟨value⟩ | ⟨bits, value⟩ <;> rfl
  | extract high low term ih =>
    simp only [sort, meaning, ih]
    rcases term.meaning env with _ | ⟨value⟩ | ⟨bits, value⟩
    · rfl
    · rfl
    · by_cases inside : low ≤ high ∧ high < bits <;>
        simp [Meaning.sort, Meaning.mapWord, TermSort.mapWord, inside]
  | concat high low ihh ihl =>
    simp only [sort, meaning, ihh, ihl]
    rcases high.meaning env with _ | ⟨value⟩ | ⟨upper, value⟩
    · rfl
    · rfl
    · rcases low.meaning env with _ | ⟨second⟩ | ⟨lower, second⟩ <;> rfl

end Term

end Concolic.Smt
