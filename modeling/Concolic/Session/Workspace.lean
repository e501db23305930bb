import Concolic.Session.Folder

/-!
# Workspaces

A workspace is a tree of folders with one of them to work in.  Files are read and written by their
paths, which start at the working folder or, after a slash, at the root.
-/

namespace Concolic

open Codec (Bytes)

structure Workspace where
  root : Entry
  /-- The names that lead from the root to the working folder. -/
  working : List String
deriving Repr

namespace Workspace

/-- The folders of the system, of which only the null device is known. -/
def systemFolders : List (String × Entry) :=
  [("dev", .folder [("null", .sink)]), ("etc", .folder []), ("tmp", .folder []),
    ("usr", .folder [])]

/-- A folder to work in, alone in the folder around it.  Names in paths have no slash in them, so
that no path leads there by the names that these two have here. -/
def ofFolder (folder : Entry) : Workspace where
  root := .folder (("/", .folder [("/", folder)]) :: systemFolders)
  working := ["/", "/"]

/-- A path has at most 4095 bytes. -/
def pathLimit : Nat := 4095

/-- The names on the way from the root to the end of a path.  Some texts are no paths. -/
def wayTo (workspace : Workspace) (path : String) : Except FileError (List String) :=
  if path.toList.contains '\x00' then .error .nullInPath
  else if path = "" then .error .notFound
  else if pathLimit < path.utf8ByteSize then .error .longName
  else if path.startsWith "/" then .ok (path.splitOn "/")
  else .ok (workspace.working ++ path.splitOn "/")

def read (workspace : Workspace) (path : String) : Except FileError Bytes := do
  match ← Entry.walk [] workspace.root (← workspace.wayTo path) with
  | (_, .file bytes) => return bytes
  | (_, .folder _) => throw .isFolder
  | (_, .sink) => return []

/-- A path that ends in a slash, or in a name that stands for a folder, cannot be written. -/
def write (workspace : Workspace) (path : String) (bytes : Bytes) :
    Except FileError Workspace := do
  match (← workspace.wayTo path).reverse.dropWhile (· = "") with
  | [] => throw .isFolder
  | last :: outer =>
    match ← Entry.walk [] workspace.root outer.reverse with
    | (_, .file _) | (_, .sink) => throw .notFolder
    | (above, .folder entries) =>
      let holder := Entry.folder entries
      if last = "." ∨ last = ".." ∨ path.endsWith "/" then throw .isFolder
      else
        match holder.lookUp last with
        | .ok (.folder _) => throw .isFolder
        | .ok .sink => return workspace
        | .ok (.file _) | .error .notFound =>
          return { workspace with root := (holder.withChild last (.file bytes)).rebuild above }
        | .error cause => throw cause

end Workspace

end Concolic
