import Concolic.Expr.Basic

/-!
# The leaves of an expression

Which inputs and constants an expression is built from, from left to right, and what it can depend
on.
-/

namespace Concolic

inductive Leaf where
  | input (id : InputId) (ty : CType) (value : Value)
  | const (ty : CType) (value : Value)
deriving DecidableEq, Repr

def Leaf.input? : Leaf → Option InputId
  | .input id _ _ => some id
  | .const .. => none

/-- Adds a number to an ascending list without repetition. -/
def insertAscending (id : InputId) : List InputId → List InputId
  | [] => [id]
  | first :: rest =>
    if id < first then id :: first :: rest
    else if id = first then first :: rest
    else first :: insertAscending id rest

namespace Expr

mutual

def leaves : Expr → List Leaf
  | .input id ty value => [.input id ty value]
  | .const ty value => [.const ty value]
  | .unary _ e _ _ => leaves e
  | .binary _ l r _ _ => leaves l ++ leaves r
  | .compare _ l r _ _ => leaves l ++ leaves r
  | .pointer _ l r _ _ => leaves l ++ leaves r
  | .slice e _ _ _ => leaves e
  | .assemble _ _ parts _ => leavesOfParts parts

def leavesOfParts : List (BitVec 32 × Expr) → List Leaf
  | [] => []
  | (_, e) :: rest => leaves e ++ leavesOfParts rest

end

/-- The inputs that occur, ascending. -/
def inputs (e : Expr) : List InputId :=
  (e.leaves.filterMap Leaf.input?).foldr insertAscending []

mutual

/-- No input occurs. -/
def isConcrete : Expr → Bool
  | .input .. => false
  | .const .. => true
  | .unary _ e _ _ => isConcrete e
  | .binary _ l r _ _ => isConcrete l && isConcrete r
  | .compare _ l r _ _ => isConcrete l && isConcrete r
  | .pointer _ l r _ _ => isConcrete l && isConcrete r
  | .slice e _ _ _ => isConcrete e
  | .assemble _ _ parts _ => arePartsConcrete parts

def arePartsConcrete : List (BitVec 32 × Expr) → Bool
  | [] => true
  | (_, e) :: rest => isConcrete e && arePartsConcrete rest

end

mutual

def dependsOn (ids : List InputId) : Expr → Bool
  | .input id _ _ => ids.contains id
  | .const .. => false
  | .unary _ e _ _ => dependsOn ids e
  | .binary _ l r _ _ => dependsOn ids l || dependsOn ids r
  | .compare _ l r _ _ => dependsOn ids l || dependsOn ids r
  | .pointer _ l r _ _ => dependsOn ids l || dependsOn ids r
  | .slice e _ _ _ => dependsOn ids e
  | .assemble _ _ parts _ => doPartsDependOn ids parts

def doPartsDependOn (ids : List InputId) : List (BitVec 32 × Expr) → Bool
  | [] => false
  | (_, e) :: rest => dependsOn ids e || doPartsDependOn ids rest

end

mutual

/-- The number of nodes. -/
def size : Expr → Nat
  | .input .. => 1
  | .const .. => 1
  | .unary _ e _ _ => 1 + size e
  | .binary _ l r _ _ => 1 + (size l + size r)
  | .compare _ l r _ _ => 1 + (size l + size r)
  | .pointer _ l r _ _ => 1 + (size l + size r)
  | .slice e _ _ _ => 1 + size e
  | .assemble _ _ parts _ => 1 + sizeOfParts parts

def sizeOfParts : List (BitVec 32 × Expr) → Nat
  | [] => 0
  | (_, e) :: rest => size e + sizeOfParts rest

end

theorem leavesOfParts_eq_flatMap (parts : List (BitVec 32 × Expr)) :
    leavesOfParts parts = parts.flatMap fun part ↦ part.2.leaves := by
  induction parts with
  | nil => rfl
  | cons part rest ih => simp [leavesOfParts, ih]

theorem arePartsConcrete_eq_all (parts : List (BitVec 32 × Expr)) :
    arePartsConcrete parts = parts.all fun part ↦ part.2.isConcrete := by
  induction parts with
  | nil => rfl
  | cons part rest ih => simp [arePartsConcrete, ih]

theorem doPartsDependOn_eq_any (ids : List InputId) (parts : List (BitVec 32 × Expr)) :
    doPartsDependOn ids parts = parts.any fun part ↦ part.2.dependsOn ids := by
  induction parts with
  | nil => rfl
  | cons part rest ih => simp [doPartsDependOn, ih]

end Expr

theorem mem_insertAscending (id other : InputId) (ids : List InputId) :
    other ∈ insertAscending id ids ↔ other = id ∨ other ∈ ids := by
  induction ids with
  | nil => simp [insertAscending]
  | cons first rest ih =>
    unfold insertAscending
    split
    · simp
    · split
      · next equal => simp [equal]
      · simp only [List.mem_cons, ih]
        constructor <;> rintro (h | h | h) <;> simp [h]

end Concolic
