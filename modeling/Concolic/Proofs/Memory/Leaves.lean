import Concolic.Expr.Leaves
import Concolic.Proofs.Expr.Parts
import Concolic.Proofs.Memory.Closure

/-!
# Leaves in memory

Cutting, converting and assembling never makes up a leaf: whatever holds of all leaves bound in
memory and stored into it holds of all that are bound afterwards and of all that are read.
-/

namespace Concolic

/-- The condition holds of every leaf. -/
def Expr.LeavesIn (condition : Leaf → Prop) (e : Expr) : Prop :=
  ∀ leaf ∈ e.leaves, condition leaf

def Operand.leaves : Operand → List Leaf
  | .concrete _ => []
  | .symbolic e => e.leaves

def Operand.LeavesIn (condition : Leaf → Prop) (operand : Operand) : Prop :=
  ∀ leaf ∈ operand.leaves, condition leaf

namespace Expr

variable {condition other : Leaf → Prop} {e part : Expr}

theorem LeavesIn.mono (all : e.LeavesIn condition)
    (weaker : ∀ leaf, condition leaf → other leaf) : e.LeavesIn other :=
  fun leaf member ↦ weaker leaf (all leaf member)

theorem leavesIn_two {l r : Expr} (left : l.LeavesIn condition) (right : r.LeavesIn condition) :
    ∀ leaf ∈ l.leaves ++ r.leaves, condition leaf := by
  intro leaf member
  exact (List.mem_append.mp member).elim (left leaf) (right leaf)

theorem leavesIn_assemble (ty : CType) (size : BitVec 32) (parts : List (BitVec 32 × Expr))
    (value : Value) :
    (assemble ty size parts value).LeavesIn condition ↔
      ∀ part ∈ parts, part.2.LeavesIn condition := by
  simp only [LeavesIn, leaves, leavesOfParts_eq_flatMap, List.mem_flatMap]
  constructor
  · intro all part member leaf inner
    exact all leaf ⟨part, member, inner⟩
  · rintro each leaf ⟨part, member, inner⟩
    exact each part member leaf inner

/-- What is cut from an expression has its leaves. -/
theorem leaves_mkSlice {offset bytes : BitVec 32} (cut : e.mkSlice offset bytes = .ok part) :
    part.leaves = e.leaves :=
  mkSlice_closed (motive := fun other ↦ other.leaves = e.leaves) (fun _ _ _ _ same ↦ same)
    (fun _ _ _ same ↦ same) rfl cut

theorem leavesIn_mkAssemble (ty : CType) (size : BitVec 32) {parts : List (BitVec 32 × Expr)}
    (value : Value) (each : ∀ part ∈ parts, part.2.LeavesIn condition) :
    (mkAssemble ty size parts value).LeavesIn condition := by
  rw [mkAssemble, leavesIn_assemble]
  exact fun part member ↦ each part ((mem_sortParts part parts).mp member)

end Expr

theorem leaves_convert (e : Expr) (ty : CType) : (Memory.convert e ty).leaves = e.leaves := by
  unfold Memory.convert
  split <;> rfl

/-- No operation of memory makes up a leaf. -/
theorem closed_leavesIn (condition : Leaf → Prop) : Memory.Closed (Expr.LeavesIn condition) where
  cut all cut := by rwa [Expr.LeavesIn, Expr.leaves_mkSlice cut]
  converted ty all := by rwa [Expr.LeavesIn, leaves_convert]
  part := (Expr.leavesIn_assemble ..).mp
  assembled observed _ _ each := Expr.leavesIn_mkAssemble observed.ty _ observed.value each

/-- A plain operand has no leaves. -/
theorem Operand.leavesIn_iff (condition : Leaf → Prop) (operand : Operand) :
    operand.LeavesIn condition ↔
      operand.Satisfies (fun _ ↦ True) (Expr.LeavesIn condition) := by
  cases operand with
  | concrete typed => exact iff_of_true (fun _ member ↦ by cases member) trivial
  | symbolic e => exact Iff.rfl

end Concolic
