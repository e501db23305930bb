import Concolic.Expr.Text

/-!
# The characters of expressions

The text of an expression as the list of its characters, for each kind of node.  An operator that
stands between its operands is an `Infix`, whether it computes or compares; its symbol and its level
are told from each other's.
-/

namespace Concolic

/-- An operator between two operands. -/
inductive Infix where
  | binary (op : BinaryOp)
  | compare (op : CompareOp)
deriving DecidableEq

namespace Infix

def symbol : Infix → String
  | .binary op => op.symbol
  | .compare op => op.symbol

def level : Infix → Nat
  | .binary op => op.level
  | .compare op => op.level

def all : List Infix :=
  [.binary .add, .binary .sub, .binary .mul, .binary .udiv, .binary .sdiv, .binary .urem,
    .binary .srem, .binary .shl, .binary .lshr, .binary .ashr, .binary .and, .binary .or,
    .binary .xor, .compare .eq, .compare .ne, .compare .ugt, .compare .ule, .compare .ult,
    .compare .uge, .compare .sgt, .compare .sle, .compare .slt, .compare .sge]

theorem find?_symbol (op : Infix) : all.find? (·.symbol == op.symbol) = some op := by
  rcases op with op | op <;> cases op <;> decide

/-- No two operators have the same symbol. -/
theorem symbol_inj {a b : Infix} (same : a.symbol = b.symbol) : a = b := by
  have found := find?_symbol a
  rw [same, find?_symbol b] at found
  exact (Option.some.inj found).symm

theorem level_bounds (op : Infix) : 3 ≤ op.level ∧ op.level ≤ 10 := by
  rcases op with op | op <;> cases op <;> decide

theorem space_not_mem_symbol (op : Infix) : ∀ c ∈ op.symbol.toList, c ≠ ' ' := by
  have all : op.symbol.toList.all (· != ' ') = true := by
    rcases op with op | op <;> cases op <;> decide
  simpa using all

theorem space_not_mem_as : ∀ c ∈ "as".toList, c ≠ ' ' := by simp

theorem symbol_ne_as (op : Infix) : op.symbol ≠ "as" := by
  rcases op with op | op <;> cases op <;> decide

end Infix

/-- The character in front of the operand; casts have none. -/
def UnaryOp.mark? : UnaryOp → Option Char
  | .negate => some '-'
  | .bitwiseNot => some '~'
  | .logicalNot => some '!'
  | .unsignedCast | .signedCast => none

theorem UnaryOp.mark?_inj {a b : UnaryOp} {mark : Char} (left : a.mark? = some mark)
    (right : b.mark? = some mark) : a = b := by
  cases a <;> cases left <;> cases b <;> first | rfl | exact absurd right (by decide)

namespace Expr

/-- The operator of a node that stands between its operands. -/
def operator? : Expr → Option (Infix × Expr × Expr)
  | .binary op l r _ _ => some (.binary op, l, r)
  | .compare op l r _ _ => some (.compare op, l, r)
  | _ => none

def chars (e : Expr) (limit : Nat) : List Char :=
  (e.textAt limit).toList

def charsOfParts (parts : List (BitVec 32 × Expr)) : List Char :=
  (textOfParts parts).toList

variable {e l r : Expr} {ty : CType} {value : Value} {limit other : Nat} {op : Infix}

theorem level_bounds (e : Expr) : 1 ≤ e.level ∧ e.level ≤ 10 := by
  cases e with
  | binary op =>
    have bounds := (Infix.binary op).level_bounds
    exact ⟨Nat.le_trans (by decide) bounds.1, bounds.2⟩
  | compare op =>
    have bounds := (Infix.compare op).level_bounds
    exact ⟨Nat.le_trans (by decide) bounds.1, bounds.2⟩
  | _ => exact ⟨Nat.le_of_ble_eq_true rfl, Nat.le_of_ble_eq_true rfl⟩

/-- Limits on the same side of the level of an expression make no difference. -/
theorem chars_congr (side : limit < e.level ↔ other < e.level) :
    e.chars limit = e.chars other := by
  unfold chars
  cases e with
  | unary | binary | compare =>
    simp only [level] at side
    simp only [textAt, side]
  | _ => simp only [textAt]

theorem chars_grouped (positive : 1 ≤ limit) (above : limit < e.level) :
    e.chars limit = '(' :: (e.chars topLevel ++ [')']) := by
  have top : e.chars (max limit e.level) = e.chars topLevel :=
    chars_congr (by have := e.level_bounds; unfold topLevel; omega)
  unfold chars at top ⊢
  rw [textAt_eq_parenthesize e limit positive, parenthesize, decide_eq_true above, if_pos rfl,
    String.toList_append, String.toList_append, top]
  rfl

theorem chars_input (id : InputId) :
    (Expr.input id ty value).chars limit = 'x' :: Nat.toDigits 10 id.toNat := by
  simp only [chars, textAt, String.toList_append, Nat.toString_eq_repr, Nat.toList_repr]
  rfl

theorem chars_const (natural : 0 ≤ value.toInt) :
    (Expr.const ty value).chars limit = Nat.toDigits 10 value.toNat := by
  have number : value.toInt = value.toNat := by
    have := BitVec.toInt_eq_toNat_cond value
    omega
  rw [chars, textAt, decimal, number]
  exact Nat.toList_repr

theorem chars_mark {op : UnaryOp} {mark : Char} (marked : op.mark? = some mark)
    (bare : 2 ≤ limit) : (Expr.unary op e ty value).chars limit = mark :: e.chars 2 := by
  have within : ¬limit < 2 := Nat.not_lt.mpr bare
  cases op <;> cases marked <;>
    simp only [chars, textAt, within, decide_false, parenthesize, Bool.false_eq_true, if_false,
      String.toList_append] <;> rfl

theorem chars_cast {op : UnaryOp} (cast : op.mark? = none) (bare : 2 ≤ limit) :
    (Expr.unary op e ty value).chars limit =
      e.chars 1 ++ ' ' :: ("as".toList ++ ' ' :: ty.text.toList) := by
  have within : ¬limit < 2 := Nat.not_lt.mpr bare
  cases op <;> cases cast <;>
    simp only [chars, textAt, within, decide_false, parenthesize, Bool.false_eq_true, if_false,
      String.toList_append, List.append_assoc] <;> rfl

theorem level_operator (found : e.operator? = some (op, l, r)) : e.level = op.level := by
  cases e <;> cases found <;> rfl

theorem chars_operator (found : e.operator? = some (op, l, r)) (bare : op.level ≤ limit) :
    e.chars limit =
      l.chars op.level ++ ' ' :: (op.symbol.toList ++ ' ' :: r.chars (op.level - 1)) := by
  cases e <;> cases found <;> rw [chars, textAt, parenthesize] <;>
    rw [if_neg (by simpa [Infix.level] using bare)] <;>
    simp only [String.toList_append, List.append_assoc] <;> rfl

theorem chars_pointer (op : PointerOp) (size : BitVec 64) :
    (Expr.pointer op l r size value).chars limit =
      op.name.toList ++ '(' :: (l.chars topLevel ++ ',' :: ' ' ::
        (r.chars topLevel ++ ',' :: (" size=".toList ++ (Nat.toDigits 10 size.toNat ++ [')'])))) := by
  simp only [chars, textAt, String.toList_append, List.append_assoc, Nat.toString_eq_repr,
    Nat.toList_repr]
  rfl

theorem chars_slice (offset bytes : BitVec 32) :
    (Expr.slice e offset bytes value).chars limit =
      "extract(".toList ++ (e.chars topLevel ++ ',' :: (" offset=".toList ++
        (Nat.toDigits 10 offset.toNat ++ ',' :: (" bytes=".toList ++
          (Nat.toDigits 10 bytes.toNat ++ [')']))))) := by
  simp only [chars, textAt, String.toList_append, List.append_assoc, Nat.toString_eq_repr,
    Nat.toList_repr]
  rfl

theorem chars_assemble (size : BitVec 32) (parts : List (BitVec 32 × Expr)) :
    (Expr.assemble ty size parts value).chars limit =
      "compose(".toList ++ ((if ty.isStruct then "size=".toList ++ Nat.toDigits 10 size.toNat
        else ty.text.toList) ++ (charsOfParts parts ++ [')'])) := by
  simp only [chars, textAt, String.toList_append, List.append_assoc, Nat.toString_eq_repr,
    charsOfParts, apply_ite String.toList, Nat.toList_repr]
  rfl

theorem charsOfParts_cons (offset : BitVec 32) (parts : List (BitVec 32 × Expr)) :
    charsOfParts ((offset, e) :: parts) =
      ',' :: ' ' :: (Nat.toDigits 10 offset.toNat ++ ':' :: ' ' ::
        (e.chars topLevel ++ charsOfParts parts)) := by
  simp only [charsOfParts, textOfParts, String.toList_append, List.append_assoc,
    Nat.toString_eq_repr, Nat.toList_repr, chars]
  rfl

end Expr

end Concolic
