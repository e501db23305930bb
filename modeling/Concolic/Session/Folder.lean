import Concolic.Codec.Reader

/-!
# Folders

Files and folders, and the ways through them.  A way is a list of names; the empty name and a dot
stay in a folder, two dots lead to the folder around it, and around the outermost folder there is
only itself.
-/

namespace Concolic

open Codec (Bytes)

inductive FileError where
  | notFound
  | notFolder
  | isFolder
  | denied
  | longName
  | nullInPath
  | notText
deriving DecidableEq, Repr

def FileError.message : FileError → String
  | .notFound => "No such file or directory (os error 2)"
  | .notFolder => "Not a directory (os error 20)"
  | .isFolder => "Is a directory (os error 21)"
  | .denied => "Permission denied (os error 13)"
  | .longName => "File name too long (os error 36)"
  | .nullInPath => "file name contained an unexpected NUL byte"
  | .notText => "stream did not contain valid UTF-8"

inductive Entry where
  | file (bytes : Bytes)
  | folder (entries : List (String × Entry))
  /-- A file that stays empty whatever is written to it. -/
  | sink
deriving Repr

namespace Entry

instance : Inhabited Entry := ⟨.folder []⟩

def child? (entry : Entry) (name : String) : Option Entry :=
  match entry with
  | .folder entries => entries.lookup name
  | _ => none

def put (name : String) (entry : Entry) : List (String × Entry) → List (String × Entry)
  | [] => [(name, entry)]
  | (first, other) :: rest =>
    if name = first then (name, entry) :: rest else (first, other) :: put name entry rest

/-- The entry with `child` under a name. -/
def withChild (entry : Entry) (name : String) (child : Entry) : Entry :=
  match entry with
  | .folder entries => .folder (put name child entries)
  | other => other

/-- The entry with `added` at the end of a list of names.  Folders missing on the way are made. -/
def insert (added : Entry) (here : Entry) : List String → Entry
  | [] => added
  | name :: rest =>
    here.withChild name (insert added ((here.child? name).getD (.folder [])) rest)

/-- The names that stay in a folder. -/
def isStill (name : String) : Bool :=
  name = "" ∨ name = "."

/-- A folder made of entries that are each given with a path. -/
def ofPaths (entries : List (String × Entry)) : Entry :=
  let add (folder : Entry) (path : String) (entry : Entry) : Entry :=
    insert entry folder ((path.splitOn "/").filter (!isStill ·))
  entries.foldl (fun folder (path, entry) ↦ add folder path entry) (.folder [])

/-- A name has at most 255 bytes. -/
def nameLimit : Nat := 255

def lookUp (entry : Entry) (name : String) : Except FileError Entry :=
  if nameLimit < name.utf8ByteSize then .error .longName
  else
    match entry.child? name with
    | none => .error .notFound
    | some child => .ok child

/-- Follows a list of names.  `above` are the names from the outermost folder down to `here`,
innermost first, each with the folder that holds it. -/
def walk (above : List (String × Entry)) (here : Entry) :
    List String → Except FileError (List (String × Entry) × Entry)
  | [] => .ok (above, here)
  | name :: rest =>
    match here with
    | .file _ | .sink => .error .notFolder
    | .folder _ =>
      if isStill name then walk above here rest
      else if name = ".." then
        match above with
        | [] => walk [] here rest
        | (_, holder) :: further => walk further holder rest
      else
        match here.lookUp name with
        | .error cause => .error cause
        | .ok entry => walk ((name, here) :: above) entry rest

/-- The outermost folder after the entry at the end of a walk has become another one. -/
def rebuild (changed : Entry) : List (String × Entry) → Entry
  | [] => changed
  | (name, holder) :: above => rebuild (holder.withChild name changed) above

end Entry

end Concolic
