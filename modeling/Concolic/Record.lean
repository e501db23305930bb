import Concolic.Memory.Basic

/-!
# Records of runs

What is kept of one run: the inputs it was given, the types of those it consumed, the branches it
took with the conditions that depended on inputs, and its symbolic memory at the end.
-/

namespace Concolic

/-- A branch condition and the direction that the run took.  `branch` is its place among the
branches of the run. -/
structure Constraint where
  branch : BitVec 64
  condition : Expr
  taken : Bool
deriving DecidableEq, Repr

namespace Constraint

/-- The recorded value of the condition agrees with the direction. -/
def holds (constraint : Constraint) : Bool :=
  (constraint.condition.value != 0) == constraint.taken

def text (constraint : Constraint) : String :=
  if constraint.taken then constraint.condition.text
  else "!(" ++ constraint.condition.text ++ ")"

instance : ToString Constraint := ⟨text⟩

end Constraint

/-- Branches in the order of the run, and the constraints of those that depended on inputs. -/
structure Path where
  branches : List BranchId := []
  constraints : List Constraint := []
deriving DecidableEq, Repr, Inhabited

namespace Path

def push (path : Path) (branch : BranchId) : Path :=
  { path with branches := path.branches ++ [branch] }

def pushConstraint (path : Path) (branch : BranchId) (condition : Expr) (taken : Bool) : Path where
  branches := path.branches ++ [branch]
  constraints := path.constraints ++ [⟨.ofNat 64 path.branches.length, condition, taken⟩]

/-- The branch that a constraint belongs to, if the path has it. -/
def branchOf? (path : Path) (constraint : Constraint) : Option BranchId :=
  path.branches[constraint.branch.toNat]?

end Path

structure Record where
  inputs : List Value := []
  vars : WordMap 32 CType := .empty
  path : Path := {}
  memory : Memory := .empty
deriving DecidableEq, Inhabited

namespace Record

/-- The inputs that the run asked for. -/
def consumedInputs (record : Record) : List Value :=
  record.inputs.take record.vars.size

end Record

end Concolic
