import Concolic.Proofs.Expr.Bare
import Concolic.Proofs.Expr.Characters
import Concolic.Proofs.Expr.Everywhere

/-!
# Expressions at the beginning of texts

Where an expression stands in front of more text, the characters from the left tell what it shows
and where it ends.  Up to level 2 the first character tells the kind of node, and names, numbers and
the texts of operands end where a character stands that cannot belong to them.
-/

namespace Concolic

/-! ## Runs of characters -/

/-- Two runs that each end where the property of their characters does are equal if the texts are
that begin with them. -/
theorem span_inj {p : Char → Prop} {a b rest rest' : List Char} (left : ∀ c ∈ a, p c)
    (right : ∀ c ∈ b, p c) (ends : ∀ c ∈ rest.head?, ¬p c) (ends' : ∀ c ∈ rest'.head?, ¬p c)
    (same : a ++ rest = b ++ rest') : a = b ∧ rest = rest' := by
  induction a generalizing b with
  | nil =>
    cases b with
    | nil => exact ⟨rfl, same⟩
    | cons d b =>
      rw [List.nil_append] at same
      exact absurd (right d List.mem_cons_self) (ends d (by rw [same]; rfl))
  | cons c a ih =>
    cases b with
    | nil =>
      rw [List.nil_append] at same
      exact absurd (left c List.mem_cons_self) (ends' c (by rw [← same]; rfl))
    | cons d b =>
      obtain ⟨rfl, tails⟩ := List.cons.inj same
      obtain ⟨rfl, rests⟩ := ih (List.forall_mem_cons.mp left).2 (List.forall_mem_cons.mp right).2
        tails
      exact ⟨rfl, rests⟩

/-- The first character, if any, is no letter and no digit. -/
def Breaks (rest : List Char) : Prop :=
  ∀ c ∈ rest.head?, ¬c.isAlphanum = true

theorem breaks_cons {c : Char} (rest : List Char) (other : c.isAlphanum = false) :
    Breaks (c :: rest) := fun d head ↦ by
  obtain rfl : c = d := Option.some.inj head
  simp [other]

theorem digits_inj {m n : Nat} {rest rest' : List Char} (breaks : Breaks rest)
    (breaks' : Breaks rest') (same : Nat.toDigits 10 m ++ rest = Nat.toDigits 10 n ++ rest') :
    m = n ∧ rest = rest' := by
  have digits (k : Nat) : ∀ c ∈ Nat.toDigits 10 k, c.isAlphanum = true := fun c member ↦ by
    rw [Char.isAlphanum, Nat.isDigit_of_mem_toDigits (by decide) (by decide) member, Bool.or_true]
  obtain ⟨equal, rests⟩ := span_inj (digits m) (digits n) breaks breaks' same
  refine ⟨?_, rests⟩
  rw [← Nat.ofDigitChars_ten_toDigits (n := m), equal, Nat.ofDigitChars_ten_toDigits]

theorem CType.text_inj {a b : CType} {rest rest' : List Char} (breaks : Breaks rest)
    (breaks' : Breaks rest') (same : a.text.toList ++ rest = b.text.toList ++ rest') :
    a.text = b.text ∧ rest = rest' := by
  have word (ty : CType) : ∀ c ∈ ty.text.toList, c.isAlphanum = true :=
    List.all_eq_true.mp (by cases ty <;> decide)
  obtain ⟨equal, rests⟩ := span_inj (word a) (word b) breaks breaks' same
  exact ⟨String.toList_inj.mp equal, rests⟩

theorem PointerOp.name_inj {a b : PointerOp} {rest rest' : List Char}
    (same : a.name.toList ++ '(' :: rest = b.name.toList ++ '(' :: rest') :
    a = b ∧ rest = rest' := by
  have word (op : PointerOp) : ∀ c ∈ op.name.toList, c.isAlphanum = true :=
    List.all_eq_true.mp (by cases op <;> decide)
  obtain ⟨equal, rests⟩ :=
    span_inj (word a) (word b) (breaks_cons rest rfl) (breaks_cons rest' rfl) same
  refine ⟨?_, (List.cons.inj rests).2⟩
  cases a <;> cases b <;> first | rfl | exact absurd equal (by decide)

/-- A word ends where the first blank is. -/
theorem word_inj {a b : List Char} {rest rest' : List Char} (left : ∀ c ∈ a, c ≠ ' ')
    (right : ∀ c ∈ b, c ≠ ' ') (same : a ++ ' ' :: rest = b ++ ' ' :: rest') :
    a = b ∧ rest = rest' := by
  have space (rest : List Char) : ∀ c ∈ (' ' :: rest).head?, ¬c ≠ ' ' := fun c head apart ↦
    apart (Option.some.inj head).symm
  obtain ⟨equal, rests⟩ := span_inj left right (space rest) (space rest') same
  exact ⟨equal, (List.cons.inj rests).2⟩

namespace Expr

/-! ## What can follow -/

/-- What can stand behind an expression that is written at a limit: the end, what closes or goes on
with a group, a cast or an operator that does not bind as tight as the limit. -/
inductive Ends (limit : Nat) : List Char → Prop where
  | nil : Ends limit []
  | close (rest : List Char) : Ends limit (')' :: rest)
  | comma (rest : List Char) : Ends limit (',' :: rest)
  | cast (loose : limit < 2) (rest : List Char) :
      Ends limit (' ' :: ("as".toList ++ ' ' :: rest))
  | operator (op : Infix) (loose : limit < op.level) (rest : List Char) :
      Ends limit (' ' :: (op.symbol.toList ++ ' ' :: rest))

variable {limit smaller : Nat} {rest rest' : List Char} {op : Infix}

theorem Ends.mono (ends : Ends limit rest) (less : smaller ≤ limit) : Ends smaller rest := by
  cases ends with
  | nil => exact .nil
  | close rest => exact .close rest
  | comma rest => exact .comma rest
  | cast loose rest => exact .cast (Nat.lt_of_le_of_lt less loose) rest
  | operator op loose rest => exact .operator op (Nat.lt_of_le_of_lt less loose) rest

theorem Ends.breaks (ends : Ends limit rest) : Breaks rest := by
  cases ends with
  | nil => exact fun c head ↦ by cases head
  | close | comma | cast | operator => exact breaks_cons _ rfl

theorem Ends.loose_operator (ends : Ends limit (' ' :: (op.symbol.toList ++ ' ' :: rest))) :
    limit < op.level := by
  generalize whole : ' ' :: (op.symbol.toList ++ ' ' :: rest) = text at ends
  cases ends with
  | nil | close | comma => cases whole
  | cast _ rest' =>
    have words := (word_inj op.space_not_mem_symbol Infix.space_not_mem_as
      (List.cons.inj whole).2).1
    exact absurd (String.toList_inj.mp words) op.symbol_ne_as
  | operator op' loose rest' =>
    have words := (word_inj op.space_not_mem_symbol op'.space_not_mem_symbol
      (List.cons.inj whole).2).1
    rwa [Infix.symbol_inj (String.toList_inj.mp words)]

theorem Ends.loose_cast (ends : Ends limit (' ' :: ("as".toList ++ ' ' :: rest))) : limit < 2 := by
  generalize whole : ' ' :: ("as".toList ++ ' ' :: rest) = text at ends
  cases ends with
  | nil | close | comma => cases whole
  | cast loose => exact loose
  | operator op' loose rest' =>
    have words := (word_inj Infix.space_not_mem_as op'.space_not_mem_symbol
      (List.cons.inj whole).2).1
    exact absurd (String.toList_inj.mp words).symm op'.symbol_ne_as

/-- No constant shows a sign. -/
def Natural : Expr → Prop :=
  Everywhere fun node ↦ ∀ ty value, node = .const ty value → 0 ≤ value.toInt

section Natural

variable {e l r : Expr} {ty : CType} {value : Value}

@[simp] theorem natural_input (id : InputId) : (Expr.input id ty value).Natural :=
  (everywhere_leaf rfl).mpr fun _ _ same ↦ by cases same

@[simp] theorem natural_const : (Expr.const ty value).Natural ↔ 0 ≤ value.toInt := by
  refine (everywhere_leaf rfl).trans ⟨fun all ↦ all ty value rfl, fun natural _ _ same ↦ ?_⟩
  cases same
  exact natural

@[simp] theorem natural_unary (op : UnaryOp) :
    (Expr.unary op e ty value).Natural ↔ e.Natural :=
  (everywhere_unary op e ty value).trans (and_iff_right fun _ _ same ↦ by cases same)

@[simp] theorem natural_binary (op : BinaryOp) :
    (Expr.binary op l r ty value).Natural ↔ l.Natural ∧ r.Natural :=
  (everywhere_binary op l r ty value).trans (and_iff_right fun _ _ same ↦ by cases same)

@[simp] theorem natural_compare (op : CompareOp) :
    (Expr.compare op l r ty value).Natural ↔ l.Natural ∧ r.Natural :=
  (everywhere_compare op l r ty value).trans (and_iff_right fun _ _ same ↦ by cases same)

@[simp] theorem natural_pointer (op : PointerOp) (size : BitVec 64) :
    (Expr.pointer op l r size value).Natural ↔ l.Natural ∧ r.Natural :=
  (everywhere_pointer op l r size value).trans (and_iff_right fun _ _ same ↦ by cases same)

@[simp] theorem natural_slice (offset bytes : BitVec 32) :
    (Expr.slice e offset bytes value).Natural ↔ e.Natural :=
  (everywhere_slice e offset bytes value).trans (and_iff_right fun _ _ same ↦ by cases same)

@[simp] theorem natural_assemble (size : BitVec 32) (parts : List (BitVec 32 × Expr)) :
    (Expr.assemble ty size parts value).Natural ↔ ∀ part ∈ parts, part.2.Natural :=
  (everywhere_assemble ty size parts value).trans (and_iff_right fun _ _ same ↦ by cases same)

end Natural

/-- What the text of an expression shows, and where it ends, is told by the characters from its
beginning on. -/
def Determined (e : Expr) (limit : Nat) : Prop :=
  ∀ (other : Expr) (rest rest' : List Char), other.Natural → Ends limit rest → Ends limit rest' →
    e.chars limit ++ rest = other.chars limit ++ rest' → e.bare = other.bare ∧ rest = rest'

/-! ## The first character -/

/-- A character that the tightest form of the expression can begin with. -/
def Leads : Expr → Char → Prop
  | .input .., c => c = 'x'
  | .const .., c => c.isDigit = true
  | .pointer .., c => c = 'p'
  | .slice .., c => c = 'e'
  | .assemble .., c => c = 'c'
  | .unary .., c | .binary .., c | .compare .., c => c = '('

variable {e other l r : Expr} {c : Char}

theorem exists_digit (n : Nat) :
    ∃ c digits, Nat.toDigits 10 n = c :: digits ∧ c.isDigit = true := by
  obtain ⟨c, digits, whole⟩ := List.exists_cons_of_ne_nil (Nat.toDigits_ne_nil (n := n) (b := 10))
  have member : c ∈ Nat.toDigits 10 n := by
    rw [whole]
    exact List.mem_cons_self
  exact ⟨c, digits, whole, Nat.isDigit_of_mem_toDigits (by decide) (by decide) member⟩

theorem one_lt_level {e : Expr} (leads : e.Leads '(') : 1 < e.level := by
  cases e with
  | input | const | pointer | slice | assemble => simp [Leads] at leads
  | unary => exact Nat.lt_succ_self 1
  | binary op => exact Nat.lt_of_lt_of_le (by decide) (Infix.binary op).level_bounds.1
  | compare op => exact Nat.lt_of_lt_of_le (by decide) (Infix.compare op).level_bounds.1

theorem exists_leads (natural : e.Natural) : ∃ c tail, e.chars 1 = c :: tail ∧ e.Leads c := by
  cases e with
  | input id ty value => exact ⟨'x', _, chars_input id, rfl⟩
  | const ty value =>
    obtain ⟨c, digits, whole, digit⟩ := exists_digit value.toNat
    exact ⟨c, digits, (chars_const (natural_const.mp natural)).trans whole, digit⟩
  | pointer op l r size value => cases op <;> exact ⟨'p', _, chars_pointer _ size, rfl⟩
  | slice e offset bytes value => exact ⟨'e', _, chars_slice offset bytes, rfl⟩
  | assemble ty size parts value => exact ⟨'c', _, chars_assemble size parts, rfl⟩
  | unary op e ty value =>
    exact ⟨'(', _, chars_grouped (Nat.le_refl 1) (one_lt_level (show Leads _ '(' from rfl)), rfl⟩
  | binary op l r ty value =>
    exact ⟨'(', _, chars_grouped (Nat.le_refl 1) (one_lt_level (show Leads _ '(' from rfl)), rfl⟩
  | compare op l r ty value =>
    exact ⟨'(', _, chars_grouped (Nat.le_refl 1) (one_lt_level (show Leads _ '(' from rfl)), rfl⟩

/-- Whatever a text begins with leads the expression that it shows. -/
theorem leads_of_same {front : List Char} (natural : other.Natural)
    (same : c :: front ++ rest = other.chars 1 ++ rest') : other.Leads c := by
  obtain ⟨d, tail, whole, leads⟩ := exists_leads natural
  rw [whole] at same
  rwa [(List.cons.inj same).1]

theorem not_leads_mark {op : UnaryOp} (marked : op.mark? = some c) : ¬e.Leads c := by
  cases op <;> cases marked <;> cases e <;> simp [Leads]

/-! ## Level 1 -/

theorem determined_input (id : InputId) (ty : CType) (value : Value) :
    Determined (.input id ty value) 1 := by
  intro other rest rest' natural ends ends' same
  rw [chars_input] at same
  have leads := leads_of_same natural same
  cases other with
  | input id' =>
    rw [chars_input] at same
    obtain ⟨number, rests⟩ := digits_inj ends.breaks ends'.breaks (List.cons.inj same).2
    rw [bare, bare, BitVec.eq_of_toNat_eq number]
    exact ⟨rfl, rests⟩
  | _ => simp [Leads] at leads

theorem determined_const (ty : CType) {value : Value} (natural : 0 ≤ value.toInt) :
    Determined (.const ty value) 1 := by
  intro other rest rest' naturalOther ends ends' same
  obtain ⟨c, digits, whole, digit⟩ := exists_digit value.toNat
  rw [chars_const natural, whole] at same
  have leads := leads_of_same naturalOther same
  cases other with
  | const ty' value' =>
    rw [chars_const (natural_const.mp naturalOther), ← whole] at same
    obtain ⟨number, rests⟩ := digits_inj ends.breaks ends'.breaks same
    rw [bare, bare, BitVec.eq_of_toNat_eq number]
    exact ⟨rfl, rests⟩
  | _ =>
    rw [show c = _ from leads] at digit
    exact absurd digit (by decide)

theorem determined_pointer (op : PointerOp) (size : BitVec 64) (value : Value)
    (left : Determined l topLevel) (right : Determined r topLevel) :
    Determined (.pointer op l r size value) 1 := by
  intro other rest rest' natural ends ends' same
  have leads : other.Leads 'p' := by
    cases op <;> rw [chars_pointer] at same <;> exact leads_of_same natural same
  cases other with
  | pointer op' l' r' size' value' =>
    obtain ⟨naturalLeft, naturalRight⟩ := (natural_pointer ..).mp natural
    rw [chars_pointer, chars_pointer] at same
    simp only [List.append_assoc, List.cons_append] at same
    obtain ⟨names, arguments⟩ := PointerOp.name_inj same
    obtain ⟨lefts, behind⟩ := left l' _ _ naturalLeft (.comma _) (.comma _) arguments
    obtain ⟨rights, sizes⟩ := right r' _ _ naturalRight (.comma _) (.comma _)
      (List.cons.inj (List.cons.inj behind).2).2
    obtain ⟨number, close⟩ := digits_inj (breaks_cons _ rfl) (breaks_cons _ rfl)
      (List.append_cancel_left (List.cons.inj sizes).2)
    rw [bare, bare, names, lefts, rights, BitVec.eq_of_toNat_eq number]
    exact ⟨rfl, (List.cons.inj close).2⟩
  | _ => simp [Leads] at leads

theorem determined_slice (offset bytes : BitVec 32) (value : Value)
    (whole : Determined e topLevel) : Determined (.slice e offset bytes value) 1 := by
  intro other rest rest' natural ends ends' same
  have leads : other.Leads 'e' := by
    rw [chars_slice] at same
    exact leads_of_same natural same
  cases other with
  | slice e' offset' bytes' value' =>
    have naturalWhole := (natural_slice ..).mp natural
    rw [chars_slice, chars_slice] at same
    simp only [List.append_assoc, List.cons_append] at same
    obtain ⟨wholes, behind⟩ := whole e' _ _ naturalWhole (.comma _) (.comma _)
      (List.append_cancel_left same)
    obtain ⟨offsets, sizes⟩ := digits_inj (breaks_cons _ rfl) (breaks_cons _ rfl)
      (List.append_cancel_left (List.cons.inj behind).2)
    obtain ⟨counts, close⟩ := digits_inj (breaks_cons _ rfl) (breaks_cons _ rfl)
      (List.append_cancel_left (List.cons.inj sizes).2)
    rw [bare, bare, wholes, BitVec.eq_of_toNat_eq offsets, BitVec.eq_of_toNat_eq counts]
    exact ⟨rfl, (List.cons.inj close).2⟩
  | _ => simp [Leads] at leads

theorem breaks_parts (parts : List (BitVec 32 × Expr)) (rest : List Char) :
    Breaks (charsOfParts parts ++ ')' :: rest) := by
  cases parts with
  | nil => exact breaks_cons rest rfl
  | cons part parts =>
    obtain ⟨offset, e⟩ := part
    rw [charsOfParts_cons]
    exact breaks_cons _ rfl

theorem ends_parts (parts : List (BitVec 32 × Expr)) (rest : List Char) :
    Ends topLevel (charsOfParts parts ++ ')' :: rest) := by
  cases parts with
  | nil => exact .close rest
  | cons part parts =>
    obtain ⟨offset, e⟩ := part
    rw [charsOfParts_cons]
    exact .comma _

theorem parts_inj {parts others : List (BitVec 32 × Expr)}
    (each : ∀ part ∈ parts, Determined part.2 topLevel)
    (natural : ∀ part ∈ others, part.2.Natural)
    (same : charsOfParts parts ++ ')' :: rest = charsOfParts others ++ ')' :: rest') :
    bareParts parts = bareParts others ∧ rest = rest' := by
  induction parts generalizing others with
  | nil =>
    cases others with
    | nil => exact ⟨rfl, (List.cons.inj same).2⟩
    | cons part others =>
      rw [charsOfParts_cons] at same
      exact absurd (List.cons.inj same).1 (by decide)
  | cons part parts ih =>
    obtain ⟨offset, e⟩ := part
    obtain ⟨here, later⟩ := List.forall_mem_cons.mp each
    rw [charsOfParts_cons] at same
    cases others with
    | nil => exact absurd (List.cons.inj same).1 (by decide)
    | cons other others =>
      obtain ⟨offset', e'⟩ := other
      obtain ⟨naturalHere, naturalLater⟩ := List.forall_mem_cons.mp natural
      rw [charsOfParts_cons] at same
      simp only [List.append_assoc, List.cons_append] at same
      obtain ⟨offsets, behind⟩ := digits_inj (breaks_cons _ rfl) (breaks_cons _ rfl)
        (List.cons.inj (List.cons.inj same).2).2
      obtain ⟨bares, tails⟩ := here e' _ _ naturalHere (ends_parts parts rest)
        (ends_parts others rest') (List.cons.inj (List.cons.inj behind).2).2
      obtain ⟨others, rests⟩ := ih later naturalLater tails
      rw [bareParts, bareParts, BitVec.eq_of_toNat_eq offsets, bares, others]
      exact ⟨rfl, rests⟩

theorem size_ne_text {ty : CType} (scalar : ty.isStruct = false) (rest rest' : List Char) :
    "size=".toList ++ rest ≠ ty.text.toList ++ rest' := fun same ↦ by
  cases ty with
  | struct => cases scalar
  | _ => exact absurd (List.cons.inj same).1 (by decide)

/-- The size of an aggregate or else the name of the type. -/
def frame (ty : CType) (size : BitVec 32) : List Char :=
  if ty.isStruct then "size=".toList ++ Nat.toDigits 10 size.toNat else ty.text.toList

theorem frame_inj {ty ty' : CType} {size size' : BitVec 32} (breaks : Breaks rest)
    (breaks' : Breaks rest') (same : frame ty size ++ rest = frame ty' size' ++ rest') :
    ty.displayed = ty'.displayed ∧
      (if ty.isStruct then size else 0) = (if ty'.isStruct then size' else 0) ∧ rest = rest' := by
  have struct {ty : CType} (aggregate : ty.isStruct = true) : ty = .struct := by
    cases ty <;> first | rfl | cases aggregate
  unfold frame at same
  cases aggregate : ty.isStruct <;> cases aggregate' : ty'.isStruct <;>
    simp only [aggregate, aggregate', if_true, if_false, Bool.false_eq_true, List.append_assoc]
      at same ⊢
  · obtain ⟨names, rests⟩ := CType.text_inj breaks breaks' same
    exact ⟨CType.displayed_eq_of_text_eq names, trivial, rests⟩
  · exact absurd same.symm (size_ne_text aggregate _ _)
  · exact absurd same (size_ne_text aggregate' _ _)
  · obtain ⟨sizes, rests⟩ := digits_inj breaks breaks' (List.append_cancel_left same)
    rw [struct aggregate, struct aggregate']
    exact ⟨rfl, BitVec.eq_of_toNat_eq sizes, rests⟩

theorem determined_assemble (ty : CType) (size : BitVec 32) {parts : List (BitVec 32 × Expr)}
    (value : Value) (each : ∀ part ∈ parts, Determined part.2 topLevel) :
    Determined (.assemble ty size parts value) 1 := by
  intro other rest rest' natural ends ends' same
  have leads : other.Leads 'c' := by
    rw [chars_assemble] at same
    exact leads_of_same natural same
  cases other with
  | assemble ty' size' parts' value' =>
    have naturalParts := (natural_assemble ..).mp natural
    rw [chars_assemble, chars_assemble] at same
    simp only [List.append_assoc, List.cons_append, List.nil_append] at same
    obtain ⟨types, sizes, tails⟩ := frame_inj (breaks_parts parts rest) (breaks_parts parts' rest')
      (List.append_cancel_left same)
    obtain ⟨partsEqual, rests⟩ := parts_inj each naturalParts tails
    rw [bare, bare, types, sizes, partsEqual]
    exact ⟨rfl, rests⟩
  | _ => simp [Leads] at leads

/-! ## Groups and level 2 -/

theorem determined_grouped (above : 1 < e.level) (whole : Determined e topLevel) :
    Determined e 1 := by
  intro other rest rest' natural ends ends' same
  rw [chars_grouped (Nat.le_refl 1) above] at same
  have overOther := one_lt_level (leads_of_same natural same)
  rw [chars_grouped (Nat.le_refl 1) overOther] at same
  simp only [List.cons_append, List.append_assoc, List.nil_append] at same
  obtain ⟨bares, rests⟩ := whole other _ _ natural (.close rest) (.close rest')
    (List.cons.inj same).2
  exact ⟨bares, (List.cons.inj rests).2⟩

theorem chars_two (plain : e.level ≠ 2) : e.chars 2 = e.chars 1 :=
  chars_congr (by have := e.level_bounds; omega)

/-- Only unary operators are written without parentheses at level 2 and not at level 1. -/
theorem level_eq_two (two : e.level = 2) :
    ∃ op operand ty value, e = .unary op operand ty value := by
  cases e with
  | unary op operand ty value => exact ⟨op, operand, ty, value, rfl⟩
  | binary op => exact absurd two (Nat.ne_of_gt (Infix.binary op).level_bounds.1)
  | compare op => exact absurd two (Nat.ne_of_gt (Infix.compare op).level_bounds.1)
  | _ => cases two

/-- At level 2 an expression is as at level 1, or begins with the mark of a unary operator, or ends
with a cast. -/
theorem two_cases (e : Expr) :
    e.level ≠ 2 ∧ e.chars 2 = e.chars 1 ∨
      (∃ op operand ty value mark, e = .unary op operand ty value ∧ op.mark? = some mark) ∨
      ∃ op operand ty value, e = .unary op operand ty value ∧ op.mark? = none := by
  by_cases two : e.level = 2
  · obtain ⟨op, operand, ty, value, rfl⟩ := level_eq_two two
    cases marked : op.mark? with
    | none => exact .inr (.inr ⟨op, operand, ty, value, rfl, marked⟩)
    | some mark => exact .inr (.inl ⟨op, operand, ty, value, mark, rfl, marked⟩)
  · exact .inl ⟨two, chars_two two⟩

theorem bare_cast {op : UnaryOp} (cast : op.mark? = none) (ty : CType) (value : Value) :
    (Expr.unary op e ty value).bare = .unary .unsignedCast e.bare ty.displayed 0 := by
  cases op <;> first | rfl | cases cast

theorem bare_mark {op : UnaryOp} (marked : op.mark? = some c) (ty : CType) (value : Value) :
    (Expr.unary op e ty value).bare = .unary op e.bare .int 0 := by
  cases op <;> first | rfl | cases marked

theorem determined_two (natural : e.Natural) (plain : e.level ≠ 2) (tight : Determined e 1) :
    Determined e 2 := by
  intro other rest rest' naturalOther ends ends' same
  rw [chars_two plain] at same
  have endsTight := ends.mono (show 1 ≤ 2 by decide)
  rcases two_cases other with
    ⟨-, chars⟩ | ⟨op, operand, ty, value, mark, rfl, marked⟩ | ⟨op, operand, ty, value, rfl, cast⟩
  · rw [chars] at same
    exact tight other rest rest' naturalOther endsTight (ends'.mono (by decide)) same
  · rw [chars_mark marked (Nat.le_refl 2)] at same
    exact absurd (leads_of_same natural same.symm) (not_leads_mark marked)
  · rw [chars_cast cast (Nat.le_refl 2)] at same
    simp only [List.append_assoc, List.cons_append] at same
    have naturalOperand := (natural_unary ..).mp naturalOther
    obtain ⟨-, rests⟩ :=
      tight operand _ _ naturalOperand endsTight (.cast (by decide) _) same
    rw [rests] at ends
    exact absurd ends.loose_cast (by decide)

theorem determined_mark {op : UnaryOp} {mark : Char} (marked : op.mark? = some mark)
    (ty : CType) (value : Value) (inner : Determined e 2) :
    Determined (.unary op e ty value) 2 := by
  intro other rest rest' natural ends ends' same
  rw [chars_mark marked (Nat.le_refl 2)] at same
  rcases two_cases other with
    ⟨-, chars⟩ | ⟨op', operand, ty', value', mark', rfl, marked'⟩ |
      ⟨op', operand, ty', value', rfl, cast⟩
  · rw [chars] at same
    exact absurd (leads_of_same natural same) (not_leads_mark marked)
  · rw [chars_mark marked' (Nat.le_refl 2)] at same
    obtain ⟨rfl, behind⟩ := List.cons.inj same
    have naturalOperand := (natural_unary ..).mp natural
    obtain ⟨bares, rests⟩ := inner operand rest rest' naturalOperand ends ends' behind
    rw [bare_mark marked, bare_mark marked', UnaryOp.mark?_inj marked marked', bares]
    exact ⟨rfl, rests⟩
  · rw [chars_cast cast (Nat.le_refl 2), List.append_assoc] at same
    have naturalOperand := (natural_unary ..).mp natural
    exact absurd (leads_of_same naturalOperand same) (not_leads_mark marked)

theorem determined_cast {op : UnaryOp} (cast : op.mark? = none) (ty : CType) (value : Value)
    (natural : e.Natural) (inner : Determined e 1) : Determined (.unary op e ty value) 2 := by
  intro other rest rest' naturalOther ends ends' same
  rw [chars_cast cast (Nat.le_refl 2)] at same
  simp only [List.append_assoc, List.cons_append] at same
  rcases two_cases other with
    ⟨-, chars⟩ | ⟨op', operand, ty', value', mark, rfl, marked⟩ |
      ⟨op', operand, ty', value', rfl, cast'⟩
  · rw [chars] at same
    obtain ⟨-, rests⟩ :=
      inner other _ _ naturalOther (.cast (by decide) _) (ends'.mono (by decide)) same
    rw [← rests] at ends'
    exact absurd ends'.loose_cast (by decide)
  · rw [chars_mark marked (Nat.le_refl 2)] at same
    exact absurd (leads_of_same natural same.symm) (not_leads_mark marked)
  · rw [chars_cast cast' (Nat.le_refl 2)] at same
    simp only [List.append_assoc, List.cons_append] at same
    have naturalOperand := (natural_unary ..).mp naturalOther
    obtain ⟨bares, behind⟩ := inner operand _ _ naturalOperand (.cast (by decide) _)
      (.cast (by decide) _) same
    obtain ⟨names, rests⟩ := CType.text_inj ends.breaks ends'.breaks
      (List.cons.inj (List.append_cancel_left (List.cons.inj behind).2)).2
    rw [bare_cast cast, bare_cast cast', bares, CType.displayed_eq_of_text_eq names]
    exact ⟨rfl, rests⟩

end Expr

end Concolic
