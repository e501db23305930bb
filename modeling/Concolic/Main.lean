import Concolic.Inspector.Basic

/-!
# The command line of the inspector

Reads the arguments and the file, prints the result, and leaves the rest to `Inspector`.
-/

namespace Concolic

/-- The contents of a file, or why they cannot be had. -/
def contentsOf (path : String) : IO (Except FileError Codec.Bytes) := do
  try
    return .ok (← IO.FS.readBinFile path).toList
  catch error =>
    match error with
    | .inappropriateType none .. => return .error .isFolder
    | .inappropriateType (some _) .. => return .error .notFolder
    | .permissionDenied .. => return .error .denied
    | .invalidArgument (some _) .. => return .error .longName
    | _ => return .error .notFound

end Concolic

open Concolic in
def main (arguments : List String) : IO UInt32 := do
  let outcome ←
    match Inspector.plan arguments with
    | .error error => pure (.error (.options error))
    | .ok .help => pure (.ok (Inspector.usage Inspector.program))
    | .ok (.inspect path options) =>
      pure (Inspector.inspect path options (← contentsOf path))
  match outcome with
  | .ok text =>
    IO.print text
    return 0
  | .error failure =>
    IO.eprint failure.errorLine
    return failure.exitCode.toUInt32
