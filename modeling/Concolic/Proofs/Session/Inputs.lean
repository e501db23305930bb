import Concolic.Expr.Text
import Concolic.Proofs.Text.Words
import Concolic.Session.Inputs
import Mathlib.Algebra.Group.Int.Defs
import Mathlib.Algebra.Group.Nat.Defs
import Mathlib.Data.List.Forall2
import Mathlib.Data.List.Induction

/-!
# Which texts are input values

The words of a text are read as inputs if each is a decimal number, with at most one sign, that fits
in 64 bits as a signed or as an unsigned number.  Otherwise the first word that is none is reported,
with the first thing from the left that keeps it from being a signed number.  In particular numbers
that are written with gaps between them are read back.
-/

namespace Concolic.Inputs

open Text (IsWord AllBlank Divides isBlank)

def AllDigits (chars : List Char) : Prop :=
  ∀ c ∈ chars, c.isDigit = true

/-- The number that decimal digits denote; any number of zeros may lead. -/
def natural (digits : List Char) : Nat :=
  Nat.ofDigitChars 10 digits 0

/-- Decimal digits, at least one, behind at most one sign. -/
inductive Denotes : List Char → Int → Prop where
  | plain {digits : List Char} (nonempty : digits ≠ []) (all : AllDigits digits) :
      Denotes digits (natural digits)
  | plus {digits : List Char} (nonempty : digits ≠ []) (all : AllDigits digits) :
      Denotes ('+' :: digits) (natural digits)
  | minus {digits : List Char} (nonempty : digits ≠ []) (all : AllDigits digits) :
      Denotes ('-' :: digits) (-natural digits)

/-- A number that fits in 64 bits, signed or unsigned; one with a minus sign must fit as a signed
one. -/
structure IsInput (word : List Char) (number : Int) : Prop where
  denotes : Denotes word number
  least : -2 ^ 63 ≤ number
  greatest : number < 2 ^ 64
  signed : word.head? = some '-' → number < 2 ^ 63

/-! ## Signs -/

def isNegative : List Char → Bool
  | '-' :: _ :: _ => true
  | _ => false

/-- What stands behind the sign.  A sign alone is none. -/
def body : List Char → List Char
  | '-' :: c :: rest => c :: rest
  | '+' :: c :: rest => c :: rest
  | word => word

def signed (word : List Char) (magnitude : Nat) : Int :=
  if isNegative word then -magnitude else magnitude

/-- The greatest magnitude of a signed number with the sign of the word. -/
def limit (word : List Char) : Nat :=
  if isNegative word then 2 ^ 63 else 2 ^ 63 - 1

def excess (word : List Char) : NumberError :=
  if isNegative word then .tooSmall else .tooLarge

/-- Everything before some character is digits of a number within the bound, and with this
character that is no longer so. -/
inductive Stops (bound : Nat) (excess : NumberError) (chars : List Char) : NumberError → Prop where
  | noDigit {front rest : List Char} {c : Char} (split : chars = front ++ c :: rest)
      (digits : AllDigits front) (within : natural front ≤ bound) (other : c.isDigit = false) :
      Stops bound excess chars .invalidDigit
  | beyond {front rest : List Char} {c : Char} (split : chars = front ++ c :: rest)
      (digits : AllDigits front) (within : natural front ≤ bound) (digit : c.isDigit = true)
      (far : bound < natural (front ++ [c])) : Stops bound excess chars excess

/-- What keeps a word from being a signed number, the first trouble from the left. -/
def Trouble (word : List Char) (cause : NumberError) : Prop :=
  Stops (limit word) (excess word) (body word) cause

section Digits

variable {bound magnitude : Nat} {excess cause : NumberError} {c : Char}
  {chars front rest more : List Char}

theorem readDigits_cons_digit (digit : c.isDigit = true) :
    readDigits bound excess magnitude (c :: rest) =
      if bound < 10 * magnitude + (c.toNat - '0'.toNat) then .error excess
      else readDigits bound excess (10 * magnitude + (c.toNat - '0'.toNat)) rest := by
  simp [readDigits, digit?, digit]

theorem readDigits_cons_other (other : c.isDigit = false) :
    readDigits bound excess magnitude (c :: rest) = .error .invalidDigit := by
  simp [readDigits, digit?, other]

/-- Reading more digits makes the number no smaller. -/
theorem le_ofDigitChars (digits : List Char) (magnitude : Nat) :
    magnitude ≤ Nat.ofDigitChars 10 digits magnitude := by
  induction digits generalizing magnitude with
  | nil => exact Nat.le_refl _
  | cons c digits ih =>
    rw [Nat.ofDigitChars_cons]
    exact Nat.le_trans (by omega) (ih _)

/-- Digits of a number within the bound are read on. -/
theorem readDigits_append (digits : AllDigits front)
    (within : Nat.ofDigitChars 10 front magnitude ≤ bound) :
    readDigits bound excess magnitude (front ++ rest) =
      readDigits bound excess (Nat.ofDigitChars 10 front magnitude) rest := by
  induction front generalizing magnitude with
  | nil => rfl
  | cons c front ih =>
    obtain ⟨here, later⟩ := List.forall_mem_cons.mp digits
    rw [Nat.ofDigitChars_cons] at within ⊢
    have first := Nat.le_trans (le_ofDigitChars front _) within
    rw [List.cons_append, readDigits_cons_digit here, if_neg (Nat.not_lt.mpr first),
      ih later within]

theorem readDigits_of_allDigits (digits : AllDigits chars) (within : natural chars ≤ bound) :
    readDigits bound excess 0 chars = .ok (natural chars) := by
  rw [← List.append_nil chars, readDigits_append digits within, List.append_nil]
  rfl

theorem natural_concat (front : List Char) (c : Char) :
    natural (front ++ [c]) = 10 * natural front + (c.toNat - '0'.toNat) := by
  rw [natural, Nat.ofDigitChars_append, Nat.ofDigitChars_cons, Nat.ofDigitChars_nil]
  rfl

theorem readDigits_of_stops (stops : Stops bound excess chars cause) :
    readDigits bound excess 0 chars = .error cause := by
  cases stops with
  | noDigit split digits within other =>
    rw [split, readDigits_append digits within, readDigits_cons_other other]
  | beyond split digits within digit far =>
    rw [natural_concat] at far
    rw [split, readDigits_append digits within, readDigits_cons_digit digit]
    exact if_pos far

theorem Stops.append (stops : Stops bound excess chars cause) (more : List Char) :
    Stops bound excess (chars ++ more) cause := by
  cases stops with
  | noDigit split digits within other =>
    exact .noDigit (by rw [split, List.append_assoc, List.cons_append]) digits within other
  | beyond split digits within digit far =>
    exact .beyond (by rw [split, List.append_assoc, List.cons_append]) digits within digit far

/-- Reading goes through to the end or stops. -/
theorem allDigits_or_stops (bound : Nat) (excess : NumberError) (chars : List Char) :
    AllDigits chars ∧ natural chars ≤ bound ∨ ∃ cause, Stops bound excess chars cause := by
  induction chars using List.reverseRecOn with
  | nil => exact .inl ⟨List.forall_mem_nil _, Nat.zero_le bound⟩
  | append_singleton front c ih =>
    rcases ih with ⟨digits, within⟩ | ⟨cause, stops⟩
    · cases digit : c.isDigit with
      | false => exact .inr ⟨.invalidDigit, .noDigit rfl digits within digit⟩
      | true =>
        rcases Nat.lt_or_ge bound (natural (front ++ [c])) with far | near
        · exact .inr ⟨excess, .beyond rfl digits within digit far⟩
        · refine .inl ⟨fun d member ↦ ?_, near⟩
          rcases List.mem_append.mp member with old | new
          · exact digits d old
          · rwa [List.mem_singleton.mp new]
    · exact .inr ⟨cause, stops.append [c]⟩

end Digits

/-! ## One word -/

section Word

variable {word : List Char} {number : Int} {cause : NumberError}

theorem signedLimit_eq : signedLimit = 2 ^ 63 := by decide

theorem unsignedLimit_eq : unsignedLimit = 2 ^ 64 - 1 := by decide

/-- A word has a minus sign, a plus sign or no sign. -/
theorem sign_cases (word : List Char) :
    (∃ c rest, word = '-' :: c :: rest) ∨ (∃ c rest, word = '+' :: c :: rest) ∨
      (∀ c rest, word ≠ '-' :: c :: rest) ∧ (∀ c rest, word ≠ '+' :: c :: rest) := by
  by_cases minus : ∃ c rest, word = '-' :: c :: rest
  · exact .inl minus
  by_cases plus : ∃ c rest, word = '+' :: c :: rest
  · exact .inr (.inl plus)
  · exact .inr (.inr ⟨by simpa using minus, by simpa using plus⟩)

theorem isNegative_of_unsigned (minus : ∀ c rest, word ≠ '-' :: c :: rest) :
    isNegative word = false := by
  unfold isNegative
  split
  · exact absurd rfl (minus _ _)
  · rfl

theorem body_of_unsigned (minus : ∀ c rest, word ≠ '-' :: c :: rest)
    (plus : ∀ c rest, word ≠ '+' :: c :: rest) : body word = word := by
  unfold body
  split
  · exact absurd rfl (minus _ _)
  · exact absurd rfl (plus _ _)
  · rfl

theorem readSigned_eq (word : List Char) :
    readSigned word = signed word <$> readDigits (limit word) (excess word) 0 (body word) := by
  rcases sign_cases word with ⟨c, rest, rfl⟩ | ⟨c, rest, rfl⟩ | ⟨minus, plus⟩
  · simp only [readSigned, limit, excess, body, isNegative, if_true, signedLimit_eq]
    cases readDigits (2 ^ 63) .tooSmall 0 (c :: rest) <;> rfl
  · simp only [readSigned, limit, excess, body, isNegative, signedLimit_eq]
    rfl
  · have read : readSigned word = Int.ofNat <$> readDigits (signedLimit - 1) .tooLarge 0 word :=
      readSigned.eq_3 word minus plus
    have positive := isNegative_of_unsigned minus
    have sign : signed word = Int.ofNat := funext fun magnitude ↦ by simp [signed, positive]
    rw [read, sign, limit, excess, positive, body_of_unsigned minus plus, signedLimit_eq]
    rfl

theorem readUnsigned_of_negative (negative : isNegative word = true) :
    readUnsigned word = .error .invalidDigit := by
  rcases sign_cases word with ⟨c, rest, rfl⟩ | ⟨c, rest, rfl⟩ | ⟨minus, -⟩
  · rfl
  · contradiction
  · rw [isNegative_of_unsigned minus] at negative
    contradiction

theorem readUnsigned_of_positive (positive : isNegative word = false) :
    readUnsigned word = readDigits unsignedLimit .tooLarge 0 (body word) := by
  rcases sign_cases word with ⟨c, rest, rfl⟩ | ⟨c, rest, rfl⟩ | ⟨minus, plus⟩
  · contradiction
  · rfl
  · rw [body_of_unsigned minus plus]
    exact readUnsigned.eq_2 word plus

theorem denotes_iff :
    Denotes word number ↔
      word ≠ [] ∧ AllDigits (body word) ∧ number = signed word (natural (body word)) := by
  constructor
  · intro denotes
    cases denotes with
    | plain nonempty all =>
      obtain ⟨c, rest, rfl⟩ := List.exists_cons_of_ne_nil nonempty
      have digit := all c List.mem_cons_self
      have minus : ∀ d more, c :: rest ≠ '-' :: d :: more := fun d more same ↦ by
        rw [(List.cons.inj same).1] at digit
        contradiction
      have plus : ∀ d more, c :: rest ≠ '+' :: d :: more := fun d more same ↦ by
        rw [(List.cons.inj same).1] at digit
        contradiction
      rw [body_of_unsigned minus plus, signed, isNegative_of_unsigned minus]
      exact ⟨nonempty, all, rfl⟩
    | plus nonempty all =>
      obtain ⟨c, rest, rfl⟩ := List.exists_cons_of_ne_nil nonempty
      exact ⟨List.cons_ne_nil _ _, all, rfl⟩
    | minus nonempty all =>
      obtain ⟨c, rest, rfl⟩ := List.exists_cons_of_ne_nil nonempty
      exact ⟨List.cons_ne_nil _ _, all, rfl⟩
  · rintro ⟨nonempty, all, rfl⟩
    rcases sign_cases word with ⟨c, rest, rfl⟩ | ⟨c, rest, rfl⟩ | ⟨minus, plus⟩
    · exact .minus (List.cons_ne_nil c rest) all
    · exact .plus (List.cons_ne_nil c rest) all
    · rw [body_of_unsigned minus plus] at all ⊢
      rw [signed, isNegative_of_unsigned minus]
      exact .plain nonempty all

theorem signed_of_negative (negative : isNegative word = true) (magnitude : Nat) :
    signed word magnitude = -magnitude :=
  if_pos negative

theorem signed_of_positive (positive : isNegative word = false) (magnitude : Nat) :
    signed word magnitude = magnitude :=
  if_neg (by simp [positive])

theorem Denotes.nonpos (denotes : Denotes word number) (minus : word.head? = some '-') :
    number ≤ 0 := by
  cases denotes with
  | plain _ all =>
    have digit := all '-' (List.mem_of_mem_head? minus)
    contradiction
  | plus => cases minus
  | minus => omega

/-- The greatest magnitude of an input with the sign of the word. -/
def greatest (word : List Char) : Nat :=
  if isNegative word then signedLimit else unsignedLimit

theorem isInput_iff :
    IsInput word number ↔ Denotes word number ∧ natural (body word) ≤ greatest word := by
  unfold greatest
  constructor
  · rintro ⟨denotes, least, most, -⟩
    refine ⟨denotes, ?_⟩
    obtain ⟨-, -, rfl⟩ := denotes_iff.mp denotes
    cases sign : isNegative word with
    | true =>
      rw [signed_of_negative sign] at least
      rw [if_pos rfl, signedLimit_eq]
      omega
    | false =>
      rw [signed_of_positive sign] at most
      rw [if_neg Bool.false_ne_true, unsignedLimit_eq]
      omega
  · rintro ⟨denotes, within⟩
    have fits : -2 ^ 63 ≤ number ∧ number < 2 ^ 64 := by
      obtain ⟨-, -, rfl⟩ := denotes_iff.mp denotes
      cases sign : isNegative word with
      | true =>
        rw [sign, if_pos rfl, signedLimit_eq] at within
        rw [signed_of_negative sign]
        omega
      | false =>
        rw [sign, if_neg Bool.false_ne_true, unsignedLimit_eq] at within
        rw [signed_of_positive sign]
        omega
    exact ⟨denotes, fits.1, fits.2, fun minus ↦ by have := denotes.nonpos minus; omega⟩

theorem isInput_of_allDigits (nonempty : word ≠ []) (digits : AllDigits (body word))
    (within : natural (body word) ≤ greatest word) :
    IsInput word (signed word (natural (body word))) := by
  rw [isInput_iff, denotes_iff]
  exact ⟨⟨nonempty, digits, rfl⟩, within⟩

theorem greatest_of_negative (negative : isNegative word = true) : greatest word = limit word := by
  rw [greatest, limit, if_pos negative, if_pos negative, signedLimit_eq]

theorem greatest_of_positive (positive : isNegative word = false) :
    greatest word = unsignedLimit := by
  rw [greatest, if_neg (by simp [positive])]

theorem limit_le_greatest (word : List Char) : limit word ≤ greatest word := by
  unfold limit greatest
  split <;> simp [signedLimit_eq, unsignedLimit_eq]

theorem readSigned_of_allDigits (digits : AllDigits (body word))
    (within : natural (body word) ≤ limit word) :
    readSigned word = .ok (signed word (natural (body word))) := by
  rw [readSigned_eq, readDigits_of_allDigits digits within]
  rfl

theorem readSigned_of_trouble (trouble : Trouble word cause) : readSigned word = .error cause := by
  rw [readSigned_eq, readDigits_of_stops trouble]
  rfl

theorem readValue_of_isInput (input : IsInput word number) :
    readValue word = .ok (.ofInt 64 number) := by
  rw [isInput_iff, denotes_iff] at input
  obtain ⟨⟨-, digits, rfl⟩, within⟩ := input
  rcases allDigits_or_stops (limit word) (excess word) (body word) with ⟨-, fits⟩ | ⟨cause, stops⟩
  · rw [readValue, readSigned_of_allDigits digits fits]
  cases sign : isNegative word with
  | true =>
    rw [greatest_of_negative sign] at within
    rw [readValue, readSigned_of_allDigits digits within]
  | false =>
    rw [greatest_of_positive sign] at within
    rw [readValue, readSigned_of_trouble stops, readUnsigned_of_positive sign,
      readDigits_of_allDigits digits within, signed_of_positive sign, BitVec.ofInt_natCast]

/-- A word that is no input does not get through the second attempt either. -/
theorem readUnsigned_of_not_isInput (nonempty : word ≠ []) (none : ∀ number, ¬ IsInput word number) :
    ∃ error, readUnsigned word = .error error := by
  cases sign : isNegative word with
  | true => exact ⟨_, readUnsigned_of_negative sign⟩
  | false =>
    rw [readUnsigned_of_positive sign]
    rcases allDigits_or_stops unsignedLimit .tooLarge (body word) with
      ⟨digits, fits⟩ | ⟨cause, stops⟩
    · rw [← greatest_of_positive sign] at fits
      exact absurd (isInput_of_allDigits nonempty digits fits) (none _)
    · exact ⟨cause, readDigits_of_stops stops⟩

theorem trouble_of_not_isInput (nonempty : word ≠ []) (none : ∀ number, ¬ IsInput word number) :
    ∃ cause, Trouble word cause := by
  rcases allDigits_or_stops (limit word) (excess word) (body word) with ⟨digits, fits⟩ | stops
  · have within := Nat.le_trans fits (limit_le_greatest word)
    exact absurd (isInput_of_allDigits nonempty digits within) (none _)
  · exact stops

theorem readValue_of_not_isInput (nonempty : word ≠ []) (none : ∀ number, ¬ IsInput word number)
    (trouble : Trouble word cause) : readValue word = .error cause := by
  obtain ⟨error, unsigned⟩ := readUnsigned_of_not_isInput nonempty none
  rw [readValue, readSigned_of_trouble trouble, unsigned]

end Word

/-! ## All words -/

/-- The words are inputs, and the values are their numbers modulo `2 ^ 64`. -/
def Spells (tokens : List (List Char)) (values : List Value) : Prop :=
  ∃ numbers, List.Forall₂ IsInput tokens numbers ∧ values = numbers.map (BitVec.ofInt 64)

/-- The first word that is no input. -/
def FirstMalformed (tokens : List (List Char)) (malformed : MalformedInput) : Prop :=
  ∃ before word after, tokens = before ++ word :: after ∧
    (∀ token ∈ before, ∃ number, IsInput token number) ∧ (∀ number, ¬ IsInput word number) ∧
    malformed.word = String.ofList word ∧ malformed.position = before.length ∧
    Trouble word malformed.cause

section Words

variable {tokens before after : List (List Char)} {word : List Char} {cause : NumberError}
  {values : List Value} {malformed : MalformedInput}

theorem Spells.parseWords_eq (spells : Spells tokens values) (position : Nat) :
    parseWords position tokens = .ok values := by
  obtain ⟨numbers, inputs, rfl⟩ := spells
  induction inputs generalizing position with
  | nil => rfl
  | cons input _ ih =>
    rw [parseWords, readValue_of_isInput input, ih (position + 1)]
    rfl

theorem parseWords_of_first (inputs : ∀ token ∈ before, ∃ number, IsInput token number)
    (nonempty : word ≠ []) (none : ∀ number, ¬ IsInput word number) (trouble : Trouble word cause)
    (position : Nat) :
    parseWords position (before ++ word :: after) =
      .error ⟨String.ofList word, position + before.length, cause⟩ := by
  induction before generalizing position with
  | nil =>
    rw [List.nil_append, parseWords, readValue_of_not_isInput nonempty none trouble]
    rfl
  | cons token before ih =>
    obtain ⟨⟨number, input⟩, others⟩ := List.forall_mem_cons.mp inputs
    rw [List.cons_append, parseWords, readValue_of_isInput input, ih others, List.length_cons,
      Nat.add_right_comm, Nat.add_assoc]
    rfl

/-- Either all words are inputs or there is a first that is none. -/
theorem spells_or_firstMalformed (nonempty : ∀ token ∈ tokens, token ≠ []) :
    (∃ values, Spells tokens values) ∨ ∃ malformed, FirstMalformed tokens malformed := by
  induction tokens with
  | nil => exact .inl ⟨[], [], .nil, rfl⟩
  | cons token tokens ih =>
    obtain ⟨here, others⟩ := List.forall_mem_cons.mp nonempty
    by_cases input : ∃ number, IsInput token number
    · rcases ih others with ⟨-, numbers, inputs, -⟩ |
        ⟨⟨_, _, cause⟩, before, word, after, rfl, inputs, none, rfl, rfl, trouble⟩
      · obtain ⟨number, input⟩ := input
        exact .inl ⟨_, number :: numbers, .cons input inputs, rfl⟩
      · exact .inr ⟨⟨_, _, cause⟩, token :: before, word, after, rfl,
          List.forall_mem_cons.mpr ⟨input, inputs⟩, none, rfl, rfl, trouble⟩
    · have none := not_exists.mp input
      obtain ⟨cause, trouble⟩ := trouble_of_not_isInput here none
      exact .inr ⟨⟨_, _, cause⟩, [], token, tokens, rfl, List.forall_mem_nil _, none, rfl, rfl,
        trouble⟩

theorem FirstMalformed.parseWords_eq (first : FirstMalformed tokens malformed)
    (nonempty : ∀ token ∈ tokens, token ≠ []) : parseWords 0 tokens = .error malformed := by
  obtain ⟨before, word, after, rfl, inputs, none, called, place, trouble⟩ := first
  have here := nonempty word (List.mem_append_right before List.mem_cons_self)
  obtain ⟨_, _, cause⟩ := malformed
  obtain rfl : _ = _ := called
  obtain rfl : _ = _ := place
  rw [parseWords_of_first inputs here none trouble, Nat.zero_add]

theorem parseWords_eq_ok_iff (nonempty : ∀ token ∈ tokens, token ≠ []) :
    parseWords 0 tokens = .ok values ↔ Spells tokens values := by
  refine ⟨fun read ↦ ?_, fun spells ↦ spells.parseWords_eq 0⟩
  rcases spells_or_firstMalformed nonempty with ⟨others, spells⟩ | ⟨malformed, first⟩
  · rw [spells.parseWords_eq 0] at read
    rwa [← Except.ok.inj read]
  · rw [first.parseWords_eq nonempty] at read
    cases read

theorem parseWords_eq_error_iff (nonempty : ∀ token ∈ tokens, token ≠ []) :
    parseWords 0 tokens = .error malformed ↔ FirstMalformed tokens malformed := by
  refine ⟨fun read ↦ ?_, fun first ↦ first.parseWords_eq nonempty⟩
  rcases spells_or_firstMalformed nonempty with ⟨values, spells⟩ | ⟨other, first⟩
  · rw [spells.parseWords_eq 0] at read
    cases read
  · rw [first.parseWords_eq nonempty] at read
    rwa [← Except.error.inj read]

end Words

/-! ## Writing numbers and reading them back -/

def decimal (value : Value) : List Char :=
  (toString value.toInt).toList

/-- Numbers with the gap in front of each. -/
def spelled (entries : List (List Char × Value)) : List Char :=
  entries.flatMap fun (gap, value) ↦ gap ++ decimal value

/-- The gaps are blank, and only the one in front of the first number may be empty. -/
structure Separated (entries : List (List Char × Value)) : Prop where
  blank : ∀ entry ∈ entries, AllBlank entry.1
  between : ∀ entry ∈ entries.tail, entry.1 ≠ []

theorem natural_repr (number : Nat) : natural number.repr.toList = number := by
  rw [Nat.toList_repr, natural, Nat.ofDigitChars_toDigits (by decide) (by decide)]

theorem allDigits_repr (number : Nat) : AllDigits number.repr.toList := by
  rw [Nat.toList_repr]
  exact fun c member ↦ Nat.isDigit_of_mem_toDigits (by decide) (by decide) member

theorem repr_ne_nil (number : Nat) : number.repr.toList ≠ [] := by
  rw [Nat.toList_repr]
  exact Nat.toDigits_ne_nil

theorem denotes_repr (number : Int) : Denotes number.repr.toList number := by
  cases number with
  | ofNat magnitude =>
    have denotes := Denotes.plain (repr_ne_nil magnitude) (allDigits_repr magnitude)
    rwa [natural_repr] at denotes
  | negSucc magnitude =>
    have denotes := Denotes.minus (repr_ne_nil (magnitude + 1)) (allDigits_repr (magnitude + 1))
    rw [natural_repr] at denotes
    have sign : (Int.negSucc magnitude).repr.toList = '-' :: (magnitude + 1).repr.toList :=
      String.toList_append
    rwa [sign, Int.negSucc_eq]

theorem isInput_decimal (value : Value) : IsInput (decimal value) value.toInt := by
  have least := value.le_toInt
  have greatest := value.toInt_lt
  exact ⟨denotes_repr value.toInt, by omega, by omega, fun _ ↦ by omega⟩

theorem isBlank_of_isDigit {c : Char} (digit : c.isDigit = true) : isBlank c = false := by
  obtain ⟨least, greatest⟩ : 48 ≤ c.toNat ∧ c.toNat ≤ 57 := by
    simpa [Char.isDigit, UInt32.le_iff_toNat_le] using digit
  simp only [isBlank, Text.blankRanges, List.any_cons, List.any_nil, Bool.or_false,
    Bool.or_eq_false_iff, Bool.and_eq_false_iff, decide_eq_false_iff_not]
  omega

theorem Denotes.isWord {word : List Char} {number : Int} (denotes : Denotes word number) :
    IsWord word := by
  have solid {digits : List Char} (all : AllDigits digits) : ∀ c ∈ digits, isBlank c = false :=
    fun c member ↦ isBlank_of_isDigit (all c member)
  cases denotes with
  | plain nonempty all => exact ⟨nonempty, solid all⟩
  | plus nonempty all => exact ⟨List.cons_ne_nil _ _, List.forall_mem_cons.mpr ⟨rfl, solid all⟩⟩
  | minus nonempty all => exact ⟨List.cons_ne_nil _ _, List.forall_mem_cons.mpr ⟨rfl, solid all⟩⟩

theorem divides_spelled {entries : List (List Char × Value)} {trail : List Char}
    (separated : Separated entries) (blank : AllBlank trail) :
    Divides (spelled entries ++ trail) (entries.map fun entry ↦ decimal entry.2) := by
  induction entries with
  | nil => exact .blank blank
  | cons entry entries ih =>
    obtain ⟨⟨here, blanks⟩, nonempty⟩ :=
      And.intro (List.forall_mem_cons.mp separated.blank) separated.between
    have later := ih ⟨blanks, fun entry member ↦ nonempty entry (List.mem_of_mem_tail member)⟩
    have ends : ∀ c ∈ (spelled entries ++ trail).head?, isBlank c = true := by
      cases entries with
      | nil => exact fun c member ↦ blank c (List.mem_of_mem_head? member)
      | cons second entries =>
        obtain ⟨gap, value⟩ := second
        obtain ⟨c, gap, rfl⟩ := List.exists_cons_of_ne_nil (nonempty _ List.mem_cons_self)
        intro d head
        obtain rfl : c = d := Option.some.inj head
        exact blanks _ List.mem_cons_self _ List.mem_cons_self
    have word := (isInput_decimal entry.2).denotes.isWord
    have divides := Divides.word here word ends later
    rwa [← List.append_assoc] at divides

theorem spells_decimal (entries : List (List Char × Value)) :
    Spells (entries.map fun entry ↦ decimal entry.2) (entries.map Prod.snd) := by
  refine ⟨entries.map fun entry ↦ entry.2.toInt, ?_, ?_⟩
  · rw [List.forall₂_map_left_iff, List.forall₂_map_right_iff, List.forall₂_same]
    exact fun entry _ ↦ isInput_decimal entry.2
  · rw [List.map_map]
    exact List.map_congr_left fun entry _ ↦ (BitVec.ofInt_toInt).symm

/-- Every text divides into words in one way, and it is read as input values exactly if each word is
a decimal number of 64 bits; the values are then these numbers.  It is refused exactly with the
first word that is none, its place and the first trouble in it.  So numbers written with gaps
between them are read back. -/
theorem parse_complete :
    (∀ text : String, ∃ tokens, (∀ others, Divides text.toList others ↔ others = tokens) ∧
      (∀ values, parse text = .ok values ↔ Spells tokens values) ∧
      ∀ malformed, parse text = .error malformed ↔ FirstMalformed tokens malformed) ∧
    ∀ entries trail, Separated entries → AllBlank trail →
      parse (String.ofList (spelled entries ++ trail)) = .ok (entries.map Prod.snd) := by
  refine ⟨fun text ↦ ⟨Text.words text.toList, fun _ ↦ Text.divides_iff, ?_⟩,
    fun entries trail separated blank ↦ ?_⟩
  · have nonempty : ∀ token ∈ Text.words text.toList, token ≠ [] :=
      fun token member ↦ ((Text.divides_words _).isWord token member).nonempty
    exact ⟨fun _ ↦ parseWords_eq_ok_iff nonempty, fun _ ↦ parseWords_eq_error_iff nonempty⟩
  · rw [parse, String.toList_ofList, (divides_spelled separated blank).words_eq]
    exact (spells_decimal entries).parseWords_eq 0

/-- One number begins the text, and the least one stands on the next line. -/
theorem parse_complete_two_lines :
    let entries : List (List Char × Value) := [([], 7), (['\r', '\n'], -9223372036854775808)]
    Separated entries ∧ AllBlank ['\t'] ∧
      parse (String.ofList (spelled entries ++ ['\t'])) = .ok [7, -9223372036854775808] := by
  intro entries
  have crlf : AllBlank ['\r', '\n'] := List.all_eq_true.mp (by decide)
  have separated : Separated entries :=
    ⟨List.forall_mem_cons.mpr ⟨Text.allBlank_nil, List.forall_mem_singleton.mpr crlf⟩, by decide⟩
  have blank : AllBlank ['\t'] := List.all_eq_true.mp (by decide)
  exact ⟨separated, blank, parse_complete.2 entries ['\t'] separated blank⟩

-- the third word is too large for a signed number before its last character is seen
example :
    parse "-007\u00a0+18446744073709551615 18446744073709551616x 1" =
      .error ⟨"18446744073709551616x", 2, .tooLarge⟩ := by
  decide

end Concolic.Inputs
