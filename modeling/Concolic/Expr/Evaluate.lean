import Concolic.Expr.Basic

/-!
# Values of expressions

`evaluate` gives the value of an expression on other inputs than those of the observed run;
`isConsistent` checks that every recorded value follows from the values recorded below it.

A machine shifts the bytes of a part within a word of 64 bits and counts bits in words of 32 bits.
Here a part from offset 8 on has no effect, and counts have no bound: `evaluate` and `isConsistent`
stand for the machine where `evaluate?` and `isConsistent?` answer.
-/

namespace Concolic.Expr

mutual

/-- An input without an entry in `inputs` keeps its recorded value.  A machine computes this value
where `evaluate?` gives one. -/
def evaluate (inputs : List Value) : Expr → Value
  | .input id ty value =>
    match inputs[id.toNat]? with
    | some entry => ty.normalize entry
    | none => value
  | .const _ value => value
  | .unary op e ty _ => op.apply ty e.bits (evaluate inputs e)
  | .binary op l r ty _ => op.apply ty (evaluate inputs l) (evaluate inputs r)
  | .compare op l r ty _ =>
    ty.normalize (flag (op.apply (max l.bits r.bits) (evaluate inputs l) (evaluate inputs r)))
  | .pointer op l r size _ => op.apply size (evaluate inputs l) (evaluate inputs r)
  | .slice e offset bytes _ => byteRange (evaluate inputs e) offset.toNat bytes.toNat
  | .assemble ty _ parts value =>
    if ty.isStruct then value else ty.normalize (evaluateParts inputs parts value)

/-- The bytes of `base` with those under a part replaced, part by part. -/
def evaluateParts (inputs : List Value) : List (BitVec 32 × Expr) → Value → Value
  | [], base => base
  | (offset, e) :: rest, base =>
    evaluateParts inputs rest (overlay base offset.toNat e.bits (evaluate inputs e))

end

/-- The value of a node computed from the values recorded in its children. -/
def recomputed : Expr → Value
  | .input _ _ value => value
  | .const _ value => value
  | .unary op e ty _ => op.apply ty e.bits e.value
  | .binary op l r ty _ => op.apply ty l.value r.value
  | .compare op l r ty _ =>
    ty.normalize (flag (op.apply (max l.bits r.bits) l.value r.value))
  | .pointer op l r size _ => op.apply size l.value r.value
  | .slice e offset bytes _ => byteRange e.value offset.toNat bytes.toNat
  | .assemble ty _ parts value =>
    if ty.isStruct then value
    else
      ty.normalize <|
        parts.foldl
          (fun base part ↦ overlay base part.1.toNat part.2.bits part.2.value) value

mutual

/-- Every recorded value is the one computed from the values below it.  This is what a machine finds
where `isConsistent?` answers. -/
def isConsistent : Expr → Bool
  | .input .. => true
  | .const .. => true
  | .unary op e ty value => recomputed (.unary op e ty value) == value && isConsistent e
  | .binary op l r ty value =>
    recomputed (.binary op l r ty value) == value && isConsistent l && isConsistent r
  | .compare op l r ty value =>
    recomputed (.compare op l r ty value) == value && isConsistent l && isConsistent r
  | .pointer op l r size value =>
    recomputed (.pointer op l r size value) == value && isConsistent l && isConsistent r
  | .slice e offset bytes value =>
    recomputed (.slice e offset bytes value) == value && isConsistent e
  | .assemble ty size parts value =>
    recomputed (.assemble ty size parts value) == value && arePartsConsistent parts

def arePartsConsistent : List (BitVec 32 × Expr) → Bool
  | [] => true
  | (_, e) :: rest => isConsistent e && arePartsConsistent rest

end

theorem evaluateParts_eq_foldl (inputs : List Value) (parts : List (BitVec 32 × Expr))
    (base : Value) :
    evaluateParts inputs parts base =
      parts.foldl
        (fun base part ↦ overlay base part.1.toNat part.2.bits (part.2.evaluate inputs)) base := by
  induction parts generalizing base with
  | nil => rfl
  | cons part rest ih => simp [evaluateParts, ih]

theorem arePartsConsistent_eq_all (parts : List (BitVec 32 × Expr)) :
    arePartsConsistent parts = parts.all fun part ↦ part.2.isConsistent := by
  induction parts with
  | nil => rfl
  | cons part rest ih => simp [arePartsConsistent, ih]

end Concolic.Expr
