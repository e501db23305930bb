import Concolic.Proofs.Smt.Meaning
import Mathlib.Data.List.Forall2

/-!
# Reading terms back

A reader for the concrete syntax of SMT-LIB, as far as terms over the constants of inputs use it.
It is independent of the printer: characters are split into lexemes, lexemes are nested into
expressions, and expressions are interpreted by the names of the theory.  What the printer writes
for a term that has a sort is read as that term.
-/

namespace Concolic.Smt

/-- A token, or expressions in parentheses. -/
inductive Sexp where
  | token (text : String)
  | list (items : List Sexp)
deriving Repr, Inhabited

inductive Lexeme where
  | opening
  | closing
  | word (text : String)
deriving DecidableEq, Repr

namespace Lexeme

def isDelimiter (c : Char) : Bool :=
  c = '(' || c = ')' || c = ' ' || c = '\n'

/-- The word that ends, unless there is none. -/
def ended (chars : List Char) : List Lexeme :=
  if chars = [] then [] else [.word (String.ofList chars)]

/-- The lexemes of a text; `chars` are those of the word that is being read. -/
def lex (chars : List Char) : List Char → List Lexeme
  | [] => ended chars
  | c :: rest =>
    if c = '(' then ended chars ++ .opening :: lex [] rest
    else if c = ')' then ended chars ++ .closing :: lex [] rest
    else if isDelimiter c then ended chars ++ lex [] rest
    else lex (chars ++ [c]) rest

end Lexeme

namespace Sexp

open Lexeme

/-- Nests lexemes; `items` are those of the list being read, `outer` those of the lists around
it. -/
def nest : List Lexeme → List Sexp → List (List Sexp) → Option (List Sexp)
  | [], items, [] => some items
  | [], _, _ :: _ => none
  | .word text :: rest, items, outer => nest rest (items ++ [.token text]) outer
  | .opening :: rest, items, outer => nest rest [] (items :: outer)
  | .closing :: rest, items, above :: outer => nest rest (above ++ [.list items]) outer
  | .closing :: _, _, [] => none

/-- All expressions of a text. -/
def readAll (text : String) : Option (List Sexp) :=
  nest (lex [] text.toList) [] []

/-- The only expression of a text. -/
def read (text : String) : Option Sexp :=
  match readAll text with
  | some [e] => some e
  | _ => none

/-! ## Interpretation -/

def natural? (digits : List Char) : Option Nat :=
  if digits ≠ [] ∧ digits.all Char.isDigit then some (Nat.ofDigitChars 10 digits 0) else none

/-- A natural number below `2 ^ bits`. -/
def word? (bits : Nat) (digits : List Char) : Option (BitVec bits) :=
  (natural? digits).bind fun n ↦ if n < 2 ^ bits then some (BitVec.ofNat bits n) else none

def symbol? (text : String) : Option Symbol :=
  match text.toList with
  | 'x' :: digits => (word? 32 digits).map .input
  | _ => none

def atom? (text : String) : Option Term :=
  if text = "true" then some .truth else (symbol? text).map .symbol

def numeral? : List Sexp → Option Term
  | [.token "_", .token name, .token width] =>
    match name.toList with
    | 'b' :: 'v' :: digits =>
      (word? 64 digits).bind fun value ↦ (natural? width.toList).map (.numeral value)
    | _ => none
  | _ => none

def bitOps : List BitOp :=
  [.add, .sub, .mul, .udiv, .sdiv, .urem, .srem, .shl, .lshr, .ashr, .and, .or, .xor]

def bitRels : List BitRel :=
  [.eq, .ult, .ule, .slt, .sle]

/-- The application of a function that has a plain name. -/
def plain? (name : String) (arguments : List Term) : Option Term :=
  if name = "and" then some (.conjunction arguments)
  else
    match arguments with
    | [term] =>
      if name = "bvneg" then some (.neg term)
      else if name = "bvnot" then some (.not term)
      else if name = "not" then some (.negation term)
      else none
    | [first, second] =>
      if name = "concat" then some (.concat first second)
      else
        match bitOps.find? fun op ↦ op.text = name with
        | some op => some (.binary op first second)
        | none => (bitRels.find? fun op ↦ op.text = name).map fun op ↦ .rel op first second
    | [first, second, third] => if name = "ite" then some (.ite first second third) else none
    | _ => none

/-- The application of a function whose name has indices. -/
def indexed? (name : String) (indices : List Nat) (argument : Term) : Option Term :=
  match indices with
  | [bits] =>
    if name = "zero_extend" then some (.zeroExtend bits argument)
    else if name = "sign_extend" then some (.signExtend bits argument)
    else none
  | [high, low] => if name = "extract" then some (.extract high low argument) else none
  | _ => none

def index? : Sexp → Option Nat
  | .token text => natural? text.toList
  | .list _ => none

def application? (head : Sexp) (arguments : List Term) : Option Term :=
  match head, arguments with
  | .token name, _ => plain? name arguments
  | .list (.token "_" :: .token name :: indices), [argument] =>
    (indices.mapM index?).bind fun indices ↦ indexed? name indices argument
  | _, _ => none

mutual

def term? : Sexp → Option Term
  | .token text => atom? text
  | .list [] => none
  | .list (head :: arguments) =>
    match numeral? (head :: arguments) with
    | some term => some term
    | none => (terms? arguments).bind (application? head)

def terms? : List Sexp → Option (List Term)
  | [] => some []
  | item :: rest => (term? item).bind fun term ↦ (terms? rest).map (term :: ·)

end

end Sexp

/-- Reads a term. -/
def Term.read (text : String) : Option Term :=
  (Sexp.read text).bind Sexp.term?

/-! ## Lexemes of a text -/

namespace Lexeme

/-- The word before the text ends there. -/
def EndsWord (rest : List Char) : Prop :=
  ∀ c ∈ rest.head?, isDelimiter c = true

theorem endsWord_nil : EndsWord [] := by
  simp [EndsWord]

theorem lex_plain {chars text : List Char} (plain : ∀ c ∈ text, isDelimiter c = false)
    (rest : List Char) : lex chars (text ++ rest) = lex (chars ++ text) rest := by
  induction text generalizing chars with
  | nil => rw [List.nil_append, List.append_nil]
  | cons c text ih =>
    obtain ⟨here, later⟩ := List.forall_mem_cons.mp plain
    have notOpening : c ≠ '(' := by
      rintro rfl
      contradiction
    have notClosing : c ≠ ')' := by
      rintro rfl
      contradiction
    rw [List.cons_append, lex, if_neg notOpening, if_neg notClosing, if_neg (by simp [here]),
      ih later, List.append_assoc]
    rfl

theorem lex_endsWord (chars : List Char) {rest : List Char} (ends : EndsWord rest) :
    lex chars rest = ended chars ++ lex [] rest := by
  cases rest with
  | nil => simp [lex, ended]
  | cons c rest =>
    have delimiter : isDelimiter c = true := ends c (by simp)
    unfold lex
    split
    · simp [ended]
    · split
      · simp [ended]
      · simp [ended]

end Lexeme

namespace Sexp

open Lexeme

mutual

def lexemes : Sexp → List Lexeme
  | .token text => [.word text]
  | .list items => .opening :: (lexemesOf items ++ [.closing])

def lexemesOf : List Sexp → List Lexeme
  | [] => []
  | item :: rest => lexemes item ++ lexemesOf rest

end

mutual

theorem nest_lexemes (e : Sexp) (rest : List Lexeme) (items : List Sexp)
    (outer : List (List Sexp)) :
    nest (e.lexemes ++ rest) items outer = nest rest (items ++ [e]) outer := by
  match e with
  | .token text => rfl
  | .list inner =>
    simp only [lexemes, List.cons_append, List.append_assoc, nest]
    rw [nest_lexemesOf inner, List.nil_append, List.nil_append, nest]

theorem nest_lexemesOf (es : List Sexp) (rest : List Lexeme) (items : List Sexp)
    (outer : List (List Sexp)) :
    nest (lexemesOf es ++ rest) items outer = nest rest (items ++ es) outer := by
  match es with
  | [] => simp [lexemesOf]
  | e :: more =>
    rw [lexemesOf, List.append_assoc, nest_lexemes e, nest_lexemesOf more, List.append_assoc]
    rfl

end

/-- The text is that of the expression, wherever it stands. -/
def Writes (text : String) (e : Sexp) : Prop :=
  ∀ rest, EndsWord rest → lex [] (text.toList ++ rest) = e.lexemes ++ lex [] rest

theorem Writes.read {text : String} {e : Sexp} (writes : Writes text e) :
    Sexp.read text = some e := by
  have whole := writes [] endsWord_nil
  rw [List.append_nil] at whole
  rw [Sexp.read, readAll, whole, nest_lexemes]
  rfl

theorem writes_token {text : String} (nonempty : text.toList ≠ [])
    (plain : ∀ c ∈ text.toList, isDelimiter c = false) : Writes text (.token text) := by
  intro rest ends
  rw [lex_plain plain, List.nil_append, lex_endsWord _ ends, ended, if_neg nonempty,
    String.ofList_toList]
  rfl

/-- Expressions with blanks between them, up to the end of their list. -/
theorem lex_intercalate {text : String} {e : Sexp} (first : Writes text e) {texts : List String}
    {es : List Sexp} (all : List.Forall₂ Writes texts es) (rest : List Char) :
    lex [] ((" ".intercalate (text :: texts)).toList ++ ')' :: rest) =
      lexemesOf (e :: es) ++ .closing :: lex [] rest := by
  induction all generalizing text e with
  | nil =>
    rw [String.intercalate_singleton, first _ (by simp [EndsWord, isDelimiter])]
    simp [lexemesOf, lex, ended]
  | @cons next item texts es here later ih =>
    have blank : (" " : String).toList = [' '] := rfl
    rw [String.intercalate_cons_cons, String.toList_append, String.toList_append, blank,
      List.append_assoc, List.append_assoc, first _ (by simp [EndsWord, isDelimiter]), lexemesOf,
      List.append_assoc, ← ih here]
    simp [lex, ended, isDelimiter]

theorem writes_application {head : String} {e : Sexp} (first : Writes head e)
    {texts : List String} {es : List Sexp} (all : List.Forall₂ Writes texts es) :
    Writes (Term.application head texts) (.list (e :: es)) := by
  intro rest ends
  have opened : ("(" : String).toList = ['('] := rfl
  have closed : (")" : String).toList = [')'] := rfl
  rw [Term.application, String.toList_append, String.toList_append, opened, closed,
    List.append_assoc, List.append_assoc, List.singleton_append, List.singleton_append, lex,
    if_pos rfl, lex_intercalate first all, lexemes]
  simp [ended]

end Sexp

/-! ## What the printer writes -/

namespace Term

open Lexeme Sexp

theorem plain_toString (n : Nat) : ∀ c ∈ (toString n).toList, isDelimiter c = false := by
  intro c member
  have digit : c.isDigit = true := by
    rw [Nat.toString_eq_repr, Nat.toList_repr] at member
    exact Nat.isDigit_of_mem_toDigits (by decide) (by decide) member
  simp only [isDelimiter, Bool.or_eq_false_iff, decide_eq_false_iff_not]
  refine ⟨⟨⟨?_, ?_⟩, ?_⟩, ?_⟩ <;> (rintro rfl; contradiction)

theorem natural?_toString (n : Nat) : natural? (toString n).toList = some n := by
  rw [Nat.toString_eq_repr, Nat.toList_repr, natural?, if_pos, Nat.ofDigitChars_toDigits]
  · decide
  · decide
  · refine ⟨Nat.toDigits_ne_nil, List.all_eq_true.mpr fun c member ↦ ?_⟩
    exact Nat.isDigit_of_mem_toDigits (by decide) (by decide) member

theorem word?_toString {bits : Nat} (word : BitVec bits) :
    word? bits (toString word.toNat).toList = some word := by
  rw [word?, natural?_toString, Option.bind_some, if_pos word.isLt, BitVec.ofNat_toNat,
    BitVec.setWidth_eq]

/-- A number with letters in front of it is one token. -/
theorem writes_numbered (lead : String) (plain : lead.toList.all fun c ↦ !isDelimiter c)
    (n : Nat) : Writes (lead ++ toString n) (.token (lead ++ toString n)) := by
  refine writes_token ?_ fun c member ↦ ?_
  · rw [String.toList_append]
    have digits : (toString n).toList ≠ [] := by
      rw [Nat.toString_eq_repr, Nat.toList_repr]
      exact Nat.toDigits_ne_nil
    exact fun empty ↦ digits (List.append_eq_nil_iff.mp empty).2
  · rw [String.toList_append] at member
    rcases List.mem_append.mp member with before | after
    · simpa using List.all_eq_true.mp plain c before
    · exact plain_toString n c after

theorem writes_name {name : String} (nonempty : name.toList ≠ [])
    (plain : name.toList.all fun c ↦ !isDelimiter c) : Writes name (.token name) :=
  writes_token nonempty (by simpa using plain)

def number (n : Nat) : Sexp :=
  .token (toString n)

/-- A name with indices. -/
def indexed (name : String) (indices : List Nat) : Sexp :=
  .list (.token "_" :: .token name :: indices.map number)

mutual

/-- The expression that the text of a term stands for. -/
def sexp : Term → Sexp
  | .symbol name => .token name.text
  | .numeral value bits => indexed ("bv" ++ toString value.toNat) [bits]
  | .neg term => .list [.token "bvneg", sexp term]
  | .not term => .list [.token "bvnot", sexp term]
  | .binary op lhs rhs => .list [.token op.text, sexp lhs, sexp rhs]
  | .rel op lhs rhs => .list [.token op.text, sexp lhs, sexp rhs]
  | .negation term => .list [.token "not", sexp term]
  | .truth => .token "true"
  | .conjunction terms => .list (.token "and" :: sexps terms)
  | .ite cond thenTerm elseTerm =>
    .list [.token "ite", sexp cond, sexp thenTerm, sexp elseTerm]
  | .zeroExtend bits term => .list [indexed "zero_extend" [bits], sexp term]
  | .signExtend bits term => .list [indexed "sign_extend" [bits], sexp term]
  | .extract high low term => .list [indexed "extract" [high, low], sexp term]
  | .concat high low => .list [.token "concat", sexp high, sexp low]

def sexps : List Term → List Sexp
  | [] => []
  | term :: rest => sexp term :: sexps rest

end

theorem writes_number (n : Nat) : Writes (toString n) (number n) := by
  have numbered := writes_numbered "" (by simp) n
  rwa [String.empty_append] at numbered

theorem writes_indexed {name : String} (written : Writes name (.token name))
    (indices : List Nat) :
    Writes (application "_" (name :: indices.map toString)) (indexed name indices) := by
  refine writes_application (writes_name (by simp) (by decide)) (.cons written ?_)
  induction indices with
  | nil => exact .nil
  | cons n rest ih => exact .cons (writes_number n) ih

theorem writes_bitOp (op : BitOp) : Writes op.text (.token op.text) := by
  cases op <;> exact writes_name (by simp [BitOp.text]) (by decide)

theorem writes_bitRel (op : BitRel) : Writes op.text (.token op.text) := by
  cases op <;> exact writes_name (by simp [BitRel.text]) (by decide)

theorem sexps_eq_map (terms : List Term) : sexps terms = terms.map sexp := by
  induction terms with
  | nil => rfl
  | cons term rest ih => simp [sexps, ih]

theorem toString_string (text : String) : toString text = text :=
  rfl

theorem numeralText_eq_application (value : Value) (bits : Nat) :
    (Term.numeral value bits).text =
      application "_" ["bv" ++ toString value.toNat, toString bits] := by
  rw [← String.toList_inj]
  simp [text, application, String.toList_append, toString_string]

theorem indexedText_eq_application (name : String) (index : Nat) :
    "(_ " ++ name ++ " " ++ toString index ++ ")" = application "_" [name, toString index] := by
  rw [← String.toList_inj]
  simp [application, String.toList_append]

theorem extractText_eq_application (high low : Nat) :
    s!"(_ extract {high} {low})" = application "_" ["extract", toString high, toString low] := by
  rw [← String.toList_inj]
  simp [application, String.toList_append, toString_string]

/-! ## Terms that have a sort -/

def operands : Term → List Term
  | .symbol _ | .numeral _ _ | .truth => []
  | .neg term | .not term | .negation term | .zeroExtend _ term | .signExtend _ term
  | .extract _ _ term => [term]
  | .binary _ lhs rhs | .rel _ lhs rhs | .concat lhs rhs => [lhs, rhs]
  | .conjunction terms => terms
  | .ite cond thenTerm elseTerm => [cond, thenTerm, elseTerm]

/-- Induction with a hypothesis for every operand. -/
@[elab_as_elim]
theorem operandInduction {motive : Term → Prop} (term : Term)
    (node : ∀ term, (∀ operand ∈ term.operands, motive operand) → motive term) : motive term := by
  induction term using inductionOn with
  | symbol | numeral | truth => exact node _ (by simp [operands])
  | neg term ih | not term ih | negation term ih | zeroExtend bits term ih
  | signExtend bits term ih | extract high low term ih =>
    exact node _ (by simpa [operands] using ih)
  | binary op lhs rhs ihl ihr | rel op lhs rhs ihl ihr | concat lhs rhs ihl ihr =>
    exact node _ (by simpa [operands] using ⟨ihl, ihr⟩)
  | conjunction terms ih => exact node _ ih
  | ite cond thenTerm elseTerm ihc iht ihe =>
    exact node _ (by simpa [operands] using ⟨ihc, iht, ihe⟩)

variable {sorts : Symbol → Option TermSort}

theorem sort_of_areTruths {terms : List Term} (truths : areTruths sorts terms = true) :
    ∀ term ∈ terms, term.sort sorts = some .truth := by
  induction terms with
  | nil => simp
  | cons term rest ih =>
    simp only [areTruths, Bool.and_eq_true, decide_eq_true_eq] at truths
    exact List.forall_mem_cons.mpr ⟨truths.1, ih truths.2⟩

/-- The operands of a term that has a sort have sorts. -/
theorem sorted_operand {term operand : Term} (sorted : (term.sort sorts).isSome)
    (member : operand ∈ term.operands) : (operand.sort sorts).isSome := by
  cases term with
  | symbol | numeral | truth => simp [operands] at member
  | neg term | not term | zeroExtend bits term | signExtend bits term | extract high low term =>
    obtain rfl : operand = term := by simpa [operands] using member
    exact Option.isSome_of_isSome_bind sorted
  | negation term =>
    obtain rfl : operand = term := by simpa [operands] using member
    by_contra none
    simp_all [sort]
  | binary op lhs rhs | rel op lhs rhs =>
    have left : (lhs.sort sorts).isSome := Option.isSome_of_isSome_bind sorted
    have right : (rhs.sort sorts).isSome :=
      Option.isSome_of_isSome_bind (Option.isSome_apply_of_isSome_bind sorted)
    rcases List.mem_pair.mp member with rfl | rfl
    · exact left
    · exact right
  | concat high low =>
    have upper : (high.sort sorts).isSome := Option.isSome_of_isSome_bind sorted
    have inner := Option.isSome_apply_of_isSome_bind sorted
    rcases List.mem_pair.mp member with rfl | rfl
    · exact upper
    · cases sort : (high.sort sorts).get upper with
      | truth =>
        rw [sort] at inner
        contradiction
      | word bits =>
        rw [sort] at inner
        exact Option.isSome_of_isSome_bind inner
  | conjunction terms =>
    have truths : areTruths sorts terms = true := by
      by_contra not
      simp_all [sort]
    rw [sort_of_areTruths truths operand member]
    rfl
  | ite cond thenTerm elseTerm =>
    have same : cond.sort sorts = some .truth ∧
        thenTerm.sort sorts = elseTerm.sort sorts := by
      by_contra not
      simp [sort, not] at sorted
    have branch : (thenTerm.sort sorts).isSome := by
      simpa [sort, same] using sorted
    simp only [operands, List.mem_cons, List.not_mem_nil, or_false] at member
    rcases member with rfl | rfl | rfl
    · rw [same.1]
      rfl
    · exact branch
    · exact same.2 ▸ branch

/-- Only the constants of inputs have a sort. -/
def OnlyInputs (sorts : Symbol → Option TermSort) : Prop :=
  ∀ name, (sorts name).isSome → ∃ id, name = .input id

/-- The text of a term is that of its expression. -/
theorem writes_text (inputs : OnlyInputs sorts) (term : Term)
    (sorted : (term.sort sorts).isSome) : Writes term.text term.sexp := by
  induction term using operandInduction with
  | node term ih =>
    have below (operand : Term) (member : operand ∈ term.operands) :
        Writes operand.text operand.sexp := ih operand member (sorted_operand sorted member)
    have name {name : String} (nonempty : name.toList ≠ [])
        (plain : name.toList.all fun c ↦ !isDelimiter c) : Writes name (.token name) :=
      writes_name nonempty plain
    have none : List.Forall₂ Writes [] [] := .nil
    cases term with
    | symbol name =>
      obtain ⟨id, rfl⟩ := inputs name sorted
      exact writes_numbered "x" (by decide) id.toNat
    | numeral value bits =>
      rw [numeralText_eq_application]
      exact writes_indexed (writes_numbered "bv" (by decide) _) [bits]
    | truth => exact name (by decide) (by decide)
    | neg term | not term | negation term =>
      exact writes_application (name (by simp) (by decide))
        (.cons (below term (by simp [operands])) none)
    | binary op lhs rhs =>
      exact writes_application (writes_bitOp op) (.cons (below lhs (by simp [operands]))
        (.cons (below rhs (by simp [operands])) none))
    | rel op lhs rhs =>
      exact writes_application (writes_bitRel op) (.cons (below lhs (by simp [operands]))
        (.cons (below rhs (by simp [operands])) none))
    | concat lhs rhs =>
      exact writes_application (name (by simp) (by decide))
        (.cons (below lhs (by simp [operands])) (.cons (below rhs (by simp [operands])) none))
    | ite cond thenTerm elseTerm =>
      exact writes_application (name (by simp) (by decide))
        (.cons (below cond (by simp [operands])) (.cons (below thenTerm (by simp [operands]))
          (.cons (below elseTerm (by simp [operands])) none)))
    | zeroExtend bits term =>
      have head : Writes s!"(_ zero_extend {bits})" (indexed "zero_extend" [bits]) := by
        have token : Writes "zero_extend" (.token "zero_extend") := name (by simp) (by decide)
        have written := writes_indexed token [bits]
        rwa [List.map_singleton, ← indexedText_eq_application] at written
      exact writes_application head (.cons (below term (by simp [operands])) none)
    | signExtend bits term =>
      have head : Writes s!"(_ sign_extend {bits})" (indexed "sign_extend" [bits]) := by
        have token : Writes "sign_extend" (.token "sign_extend") := name (by simp) (by decide)
        have written := writes_indexed token [bits]
        rwa [List.map_singleton, ← indexedText_eq_application] at written
      exact writes_application head (.cons (below term (by simp [operands])) none)
    | extract high low term =>
      have head : Writes s!"(_ extract {high} {low})" (indexed "extract" [high, low]) := by
        rw [extractText_eq_application]
        exact writes_indexed (name (by simp) (by decide)) [high, low]
      exact writes_application head (.cons (below term (by simp [operands])) none)
    | conjunction terms =>
      rw [text, texts_eq_map, sexp, sexps_eq_map]
      refine writes_application (name (by simp) (by decide)) ?_
      rw [List.forall₂_map_left_iff, List.forall₂_map_right_iff, List.forall₂_same]
      exact below

/-! ## Interpretation of what is written -/

theorem terms?_map {terms : List Term} (each : ∀ term ∈ terms, term? term.sexp = some term) :
    terms? (terms.map sexp) = some terms := by
  induction terms with
  | nil => rfl
  | cons term rest ih =>
    obtain ⟨here, later⟩ := List.forall_mem_cons.mp each
    simp [terms?, here, ih later]

/-- A list whose head is no underscore is an application. -/
theorem term?_list {head : Sexp} (arguments : List Term)
    (ordinary : ∀ rest, numeral? (head :: rest) = none)
    (each : ∀ argument ∈ arguments, term? argument.sexp = some argument) :
    term? (.list (head :: arguments.map sexp)) = application? head arguments := by
  rw [term?, ordinary]
  simp [terms?_map each]

theorem atom?_inputText (id : InputId) :
    atom? (Symbol.input id).text = some (.symbol (.input id)) := by
  have chars : (Symbol.input id).text.toList = 'x' :: (toString id.toNat).toList := by
    simp [Symbol.text, toString_string]
  have notTrue : (Symbol.input id).text ≠ "true" := by
    intro same
    rw [same] at chars
    simp at chars
  rw [atom?, if_neg notTrue, symbol?, chars]
  simp only [word?_toString]
  rfl

theorem numeral?_indexed (value : Value) (bits : Nat) :
    numeral? [.token "_", .token ("bv" ++ toString value.toNat), number bits] =
      some (.numeral value bits) := by
  have chars : ("bv" ++ toString value.toNat).toList =
      'b' :: 'v' :: (toString value.toNat).toList := by
    simp
  simp only [numeral?, number, chars, word?_toString, natural?_toString, Option.bind_some,
    Option.map_some]

/-- The name of an indexed function with its indices is read as it was written. -/
theorem application?_indexed (name : String) (indices : List Nat) (argument : Term) :
    application? (indexed name indices) [argument] = indexed? name indices argument := by
  have read : (indices.map number).mapM index? = some indices := by
    induction indices with
    | nil => rfl
    | cons n rest ih =>
      simp only [List.map_cons, List.mapM_cons, number, index?, natural?_toString, ih]
      rfl
  simp only [application?, indexed, read, Option.bind_some]

theorem plain?_bitOp (op : BitOp) (lhs rhs : Term) :
    plain? op.text [lhs, rhs] = some (.binary op lhs rhs) := by
  cases op <;> rfl

theorem plain?_bitRel (op : BitRel) (lhs rhs : Term) :
    plain? op.text [lhs, rhs] = some (.rel op lhs rhs) := by
  cases op <;> rfl

/-- Only the underscore opens a numeral. -/
theorem numeral?_of_ne {name : String} (different : name ≠ "_") (rest : List Sexp) :
    numeral? (.token name :: rest) = none := by
  unfold numeral?
  split
  · next same =>
    simp only [List.cons.injEq, token.injEq] at same
    exact absurd same.1 different
  · rfl

/-- The expression of a term is interpreted as the term. -/
theorem term?_sexp (inputs : OnlyInputs sorts) (term : Term)
    (sorted : (term.sort sorts).isSome) : term? term.sexp = some term := by
  induction term using operandInduction with
  | node term ih =>
    have below (operand : Term) (member : operand ∈ term.operands) :
        term? operand.sexp = some operand := ih operand member (sorted_operand sorted member)
    cases term with
    | symbol name =>
      obtain ⟨id, rfl⟩ := inputs name sorted
      exact atom?_inputText id
    | numeral value bits =>
      have read := numeral?_indexed value bits
      simp only [sexp, indexed, List.map_cons, List.map_nil, term?, read]
    | truth => rfl
    | neg term | not term | negation term =>
      exact term?_list [term] (numeral?_of_ne (by decide)) below
    | binary op lhs rhs =>
      rw [← plain?_bitOp]
      exact term?_list [lhs, rhs]
        (numeral?_of_ne (by cases op <;> decide)) below
    | rel op lhs rhs =>
      rw [← plain?_bitRel]
      exact term?_list [lhs, rhs]
        (numeral?_of_ne (by cases op <;> decide)) below
    | concat lhs rhs =>
      exact term?_list [lhs, rhs] (numeral?_of_ne (by decide)) below
    | ite cond thenTerm elseTerm =>
      exact term?_list [cond, thenTerm, elseTerm] (numeral?_of_ne (by decide)) below
    | zeroExtend bits term =>
      have read := application?_indexed "zero_extend" [bits] term
      exact (term?_list [term] (fun _ ↦ rfl) below).trans read
    | signExtend bits term =>
      have read := application?_indexed "sign_extend" [bits] term
      exact (term?_list [term] (fun _ ↦ rfl) below).trans read
    | extract high low term =>
      have read := application?_indexed "extract" [high, low] term
      exact (term?_list [term] (fun _ ↦ rfl) below).trans read
    | conjunction terms =>
      rw [sexp, sexps_eq_map]
      exact term?_list terms (numeral?_of_ne (by decide)) below

/-- What the printer writes for a term over inputs is read as that term. -/
theorem read_text (inputs : OnlyInputs sorts) {term : Term} (sorted : (term.sort sorts).isSome) :
    read term.text = some term := by
  rw [read, (writes_text inputs term sorted).read, Option.bind_some]
  exact term?_sexp inputs term sorted

end Term

end Concolic.Smt
