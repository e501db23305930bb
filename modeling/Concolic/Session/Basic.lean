import Concolic.Codec.Record
import Concolic.Machine.Step
import Concolic.Session.Inputs
import Concolic.Session.Workspace

/-!
# Sessions

A session surrounds one run: it reads the input values from a file, drives the machine, and at the
end reports the constraints and writes the record.  A missing input file means that there are no
inputs.
-/

namespace Concolic

open Codec (Bytes DecodeError)

structure Config where
  input : String := "input"
  output : String := "szd_execution"
  printReport : Bool := true
deriving DecidableEq, Repr

/-- The defaults, overridden by the variables that are set. -/
def Config.ofEnvironment (setting : String → Option String) : Config where
  input := (setting "CONCOLIC_INPUT").getD "input"
  output := (setting "CONCOLIC_OUTPUT").getD "szd_execution"
  printReport := (setting "CONCOLIC_QUIET").isNone

inductive RecordError where
  | malformed (cause : DecodeError)
  | inaccessible (path : String) (cause : FileError)
deriving DecidableEq, Repr

def RecordError.message : RecordError → String
  | .malformed cause => cause.message
  | .inaccessible path cause => s!"cannot access `{path}`: " ++ cause.message

inductive SessionError where
  | unreadable (path : String) (cause : FileError)
  | malformed (input : MalformedInput)
  | record (error : RecordError)
deriving DecidableEq, Repr

def SessionError.message : SessionError → String
  | .unreadable path cause => s!"cannot read inputs from `{path}`: " ++ cause.message
  | .malformed input => input.message
  | .record error => error.message

/-- The number of constraints, and the constraints one by one. -/
structure Report where
  summary : String
  body : String
deriving DecidableEq, Repr

namespace Record

def report (record : Record) : Report where
  summary := s!"{record.path.constraints.length}\n"
  body := String.join (record.path.constraints.map fun constraint ↦ constraint.text ++ "\n")

/-- The record in the contents of a file. -/
def ofContents (path : String) (contents : Except FileError Bytes) : Except RecordError Record :=
  match contents with
  | .error cause => .error (.inaccessible path cause)
  | .ok bytes => (deserialize bytes).mapError .malformed

def readFrom (workspace : Workspace) (path : String) : Except RecordError Record :=
  ofContents path (workspace.read path)

def writeTo (record : Record) (workspace : Workspace) (path : String) :
    Except RecordError Workspace :=
  (workspace.write path record.serialize).mapError (.inaccessible path)

end Record

structure Session where
  config : Config
  machine : Machine

namespace Session

def readText (workspace : Workspace) (path : String) : Except FileError String := do
  let bytes ← workspace.read path
  match String.fromUTF8? ⟨bytes.toArray⟩ with
  | some text => return text
  | none => throw .notText

def readInputs (workspace : Workspace) (path : String) :
    Except SessionError (List Value) × List LogLine :=
  match readText workspace path with
  | .ok text => ((Inputs.parse text).mapError .malformed, [])
  | .error .notFound =>
    (.ok [], [⟨.warn, s!"no input file at `{path}`; starting without inputs"⟩])
  | .error cause => (.error (.unreadable path cause), [])

def start (config : Config) (policy : PointerPolicy) (workspace : Workspace) :
    Except SessionError Session × List LogLine :=
  match readInputs workspace config.input with
  | (.error error, log) => (.error error, log)
  | (.ok inputs, log) =>
    let line := s!"starting run with {inputs.length} input values from `{config.input}`"
    (.ok { config, machine := .start policy inputs }, log ++ [⟨.info, line⟩])

/-- The end of a session: what it printed, and the workspace with the record in it. -/
structure Finish where
  report : Report
  outcome : Except SessionError Workspace
  log : List LogLine

def finish (session : Session) (workspace : Workspace) : Finish :=
  let record := session.machine.record
  let report := if session.config.printReport then record.report else ⟨"", ""⟩
  match record.writeTo workspace session.config.output with
  | .error error => { report, outcome := .error (.record error), log := [] }
  | .ok written =>
    let line := s!"wrote {record.path.constraints.length} constraints to " ++
      s!"`{session.config.output}`"
    { report, outcome := .ok written, log := [⟨.info, line⟩] }

end Session

end Concolic
