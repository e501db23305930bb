import Concolic.Operator.Apply

/-!
# Symbolic expressions

A tree of operators over numbered inputs and constants.  Every node carries the value it had on
the observed run, so that a tree has a value without a solver.  `slice` takes consecutive bytes of
an expression; `assemble` lays expressions over the bytes of a value.  The `mk` functions bring the
value of the new node into the form of its type.
-/

namespace Concolic

inductive Expr where
  | input (id : InputId) (ty : CType) (value : Value)
  | const (ty : CType) (value : Value)
  | unary (op : UnaryOp) (operand : Expr) (ty : CType) (value : Value)
  | binary (op : BinaryOp) (lhs rhs : Expr) (ty : CType) (value : Value)
  /-- `ty` is the type of the truth value, not that of the operands. -/
  | compare (op : CompareOp) (lhs rhs : Expr) (ty : CType) (value : Value)
  | pointer (op : PointerOp) (lhs rhs : Expr) (size : BitVec 64) (value : Value)
  /-- `bytes` bytes of `whole` from byte `offset` on, in little-endian order. -/
  | slice (whole : Expr) (offset bytes : BitVec 32) (value : Value)
  /-- `size` bytes made of `parts` at their offsets.  Bytes under no part are those of `value`,
  which is the size instead when `ty` is an aggregate. -/
  | assemble (ty : CType) (size : BitVec 32) (parts : List (BitVec 32 × Expr)) (value : Value)
deriving Repr

namespace Expr

instance : Inhabited Expr := ⟨.const .bool 0⟩

/-- Induction on a tree, with a hypothesis for every part of an assembled value. -/
@[elab_as_elim, induction_eliminator]
theorem induction {motive : Expr → Prop}
    (input : ∀ id ty value, motive (.input id ty value))
    (const : ∀ ty value, motive (.const ty value))
    (unary : ∀ op operand ty value, motive operand → motive (.unary op operand ty value))
    (binary : ∀ op lhs rhs ty value, motive lhs → motive rhs →
      motive (.binary op lhs rhs ty value))
    (compare : ∀ op lhs rhs ty value, motive lhs → motive rhs →
      motive (.compare op lhs rhs ty value))
    (pointer : ∀ op lhs rhs size value, motive lhs → motive rhs →
      motive (.pointer op lhs rhs size value))
    (slice : ∀ whole offset bytes value, motive whole → motive (.slice whole offset bytes value))
    (assemble : ∀ ty size parts value, (∀ part ∈ parts, motive part.2) →
      motive (.assemble ty size parts value)) (e : Expr) : motive e :=
  Expr.rec (motive_1 := motive) (motive_2 := fun parts ↦ ∀ part ∈ parts, motive part.2)
    (motive_3 := fun part ↦ motive part.2) input const unary binary compare pointer slice assemble
    (by simp) (fun _ _ first rest ↦ by simpa using ⟨first, fun a b ↦ rest (a, b)⟩)
    (fun _ _ h ↦ h) e

def value : Expr → Value
  | .input _ _ value => value
  | .const _ value => value
  | .unary _ _ _ value => value
  | .binary _ _ _ _ value => value
  | .compare _ _ _ _ value => value
  | .pointer _ _ _ _ value => value
  | .slice _ _ _ value => value
  | .assemble _ _ _ value => value

/-- A slice has the unsigned type of its size if there is one. -/
def ty : Expr → CType
  | .input _ ty _ => ty
  | .const ty _ => ty
  | .unary _ _ ty _ => ty
  | .binary _ _ _ ty _ => ty
  | .compare _ _ _ ty _ => ty
  | .pointer op _ _ _ _ => op.resultType
  | .slice _ _ bytes _ => (CType.ofSize? bytes.toNat false).getD .struct
  | .assemble ty _ _ _ => ty

def bytes : Expr → Nat
  | .slice _ _ bytes _ => bytes.toNat
  | .assemble _ size _ _ => size.toNat
  | e => e.ty.size

def bits (e : Expr) : Nat :=
  8 * e.bytes

def isSigned (e : Expr) : Bool :=
  e.ty.isSigned

def isStruct (e : Expr) : Bool :=
  e.ty.isStruct

def isComparison : Expr → Bool
  | .compare .. => true
  | _ => false

def mkInput (id : InputId) (ty : CType) (value : Value) : Expr :=
  .input id ty (ty.normalize value)

def mkConst (ty : CType) (value : Value) : Expr :=
  .const ty (ty.normalize value)

def mkUnary (op : UnaryOp) (operand : Expr) (ty : CType) (value : Value) : Expr :=
  .unary op operand ty (ty.normalize value)

def mkBinary (op : BinaryOp) (lhs rhs : Expr) (ty : CType) (value : Value) : Expr :=
  .binary op lhs rhs ty (ty.normalize value)

def mkCompare (op : CompareOp) (lhs rhs : Expr) (ty : CType) (value : Value) : Expr :=
  .compare op lhs rhs ty (ty.normalize value)

def mkPointer (op : PointerOp) (lhs rhs : Expr) (size : BitVec 64) (value : Value) : Expr :=
  .pointer op lhs rhs size (op.resultType.normalize value)

def insertPart (part : BitVec 32 × Expr) : List (BitVec 32 × Expr) → List (BitVec 32 × Expr)
  | [] => [part]
  | first :: rest =>
    if part.1 ≤ first.1 then part :: first :: rest else first :: insertPart part rest

/-- The parts in the order of their offsets; equal offsets keep their order. -/
def sortParts (parts : List (BitVec 32 × Expr)) : List (BitVec 32 × Expr) :=
  parts.foldr insertPart []

def mkAssemble (ty : CType) (size : BitVec 32) (parts : List (BitVec 32 × Expr))
    (value : Value) : Expr :=
  .assemble ty size (sortParts parts) (ty.normalize value)

/-- The comparison that decides a branch on `e`: `e` itself, or `e != 0`. -/
def condition (e : Expr) : Expr :=
  if e.isComparison then e else mkCompare .ne e (mkConst e.ty 0) .int (flag (e.value != 0))

/-! ## Equality -/

mutual

/-- Structural equality, node by node. -/
def same : Expr → Expr → Bool
  | .input id ty value, .input id' ty' value' => id == id' && ty == ty' && value == value'
  | .const ty value, .const ty' value' => ty == ty' && value == value'
  | .unary op e ty value, .unary op' e' ty' value' =>
    op == op' && same e e' && ty == ty' && value == value'
  | .binary op l r ty value, .binary op' l' r' ty' value' =>
    op == op' && same l l' && same r r' && ty == ty' && value == value'
  | .compare op l r ty value, .compare op' l' r' ty' value' =>
    op == op' && same l l' && same r r' && ty == ty' && value == value'
  | .pointer op l r size value, .pointer op' l' r' size' value' =>
    op == op' && same l l' && same r r' && size == size' && value == value'
  | .slice e offset bytes value, .slice e' offset' bytes' value' =>
    same e e' && offset == offset' && bytes == bytes' && value == value'
  | .assemble ty size parts value, .assemble ty' size' parts' value' =>
    ty == ty' && size == size' && sameParts parts parts' && value == value'
  | _, _ => false

def sameParts : List (BitVec 32 × Expr) → List (BitVec 32 × Expr) → Bool
  | [], [] => true
  | (offset, e) :: rest, (offset', e') :: rest' =>
    offset == offset' && same e e' && sameParts rest rest'
  | _, _ => false

end

theorem same_iff_eq (a b : Expr) : same a b = true ↔ a = b := by
  induction a generalizing b with
  | assemble ty size parts value ih =>
    cases b with
    | assemble ty' size' parts' value' =>
      have parts_iff : sameParts parts parts' = true ↔ parts = parts' := by
        clear value value' ty ty' size size'
        induction parts generalizing parts' with
        | nil => cases parts' <;> simp [sameParts]
        | cons part rest ihRest =>
          cases parts' with
          | nil => simp [sameParts]
          | cons part' rest' =>
            obtain ⟨offset, e⟩ := part
            obtain ⟨offset', e'⟩ := part'
            have here := ih (offset, e) (by simp) e'
            have there := ihRest (fun p hp ↦ ih p (by simp [hp])) rest'
            simp_all [sameParts]
      simp [same, parts_iff, and_assoc]
    | _ => simp [same]
  | _ => cases b <;> simp_all [same, and_assoc]

instance : DecidableEq Expr := fun a b ↦ decidable_of_iff _ (same_iff_eq a b)

end Expr

end Concolic
