import Concolic.Inspector.Options
import Concolic.Session.Basic
import Concolic.Smt.Encode

/-!
# The inspector

Prints a record: the inputs, their types, the branches and constraints, on demand the memory, or
instead of all that the path condition as a script for a solver.
-/

namespace Concolic.Inspector

open Codec (Bytes)

/-- The branch that a constraint belongs to, or a question mark if the path has no such branch. -/
def branchLabel (path : Path) (constraint : Constraint) : String :=
  match path.branchOf? constraint with
  | some branch => toString branch.toInt
  | none => "?"

def constraintLine (path : Path) (constraint : Constraint) (index : Nat) : String :=
  s!"  #{index} (branch " ++ branchLabel path constraint ++ "): " ++ constraint.text ++ "\n"

def commaSeparated (items : List String) : String :=
  ", ".intercalate items

def describe (record : Record) (showMemory : Bool) : String :=
  let path := record.path
  let vars := record.vars.entries.map fun entry ↦ s!"x{entry.1.toNat}: {entry.2}"
  let constraintLines := path.constraints.zipIdx.map fun entry ↦
    constraintLine path entry.1 entry.2
  "inputs: [" ++ commaSeparated (record.inputs.map decimal) ++ "]\n" ++
    "vars: [" ++ commaSeparated vars ++ "]\n" ++
    s!"branches: {path.branches.length}\n" ++
    s!"constraints: {path.constraints.length}\n" ++
    String.join constraintLines ++
    if showMemory then s!"memory: {record.memory.size} bindings\n" ++ record.memory.text
    else ""

def script (record : Record) : Except Fault String :=
  match (record.path.constraints.mapM Smt.encodeConstraint).runIn {} with
  | (.ok assertions, context) => .ok (context.script assertions)
  | (.error fault, _) => .error fault

/-- What the inspector has to do: print its usage, or show the record at a path. -/
inductive Task where
  | help
  | inspect (path : String) (options : Options)

/-- A record is looked for under its default name unless a free argument names another. -/
def plan (arguments : List String) : Except OptionError Task := do
  let options ← Options.parse arguments
  if options.has .help then return .help
  else return .inspect (options.free.headD ({} : Config).output) options

inductive Failure where
  | options (error : OptionError)
  | record (error : RecordError)
  | fault (fault : Fault)

def Failure.message : Failure → String
  | .options error => error.message
  | .record error => error.message
  | .fault cause => cause.message

def present (options : Options) (record : Record) : Except Failure String :=
  if options.has .smt then (script record).mapError .fault
  else .ok (describe record (options.has .memory))

/-- The text to print for a file with the given contents. -/
def inspect (path : String) (options : Options) (contents : Except FileError Bytes) :
    Except Failure String := do
  let record ← (Record.ofContents path contents).mapError .record
  present options record

def program : String := "dump-execution"

/-- The inspector at work in a workspace. -/
def runIn (workspace : Workspace) (arguments : List String) : Except Failure String :=
  match plan arguments with
  | .error error => .error (.options error)
  | .ok .help => .ok (usage program)
  | .ok (.inspect path options) => inspect path options (workspace.read path)

/-- The exit code of a failure. -/
def Failure.exitCode : Failure → UInt8
  | .fault _ => 101
  | _ => 1

/-- The line on the error output; a fault has one too. -/
def Failure.errorLine (failure : Failure) : String :=
  "error: " ++ failure.message ++ "\n"

end Concolic.Inspector
