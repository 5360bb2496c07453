import TinyAsm.Text.Utf8

/-!
# Files

Commands read and write whole files by path. `Storage` is what they ask for, in any monad.
`FileTree` is a storage held in a value: a tree of files below a working directory, in
which paths are followed component by component.
-/

namespace TinyAsm

open Utf8 (Bytes)

/-- Why a file cannot be read or written. -/
inductive FileFault where
  /-- There is nothing at the path. -/
  | notFound
  /-- Anything else that the system reports, with its number for it. -/
  | system (description : String) (code : Nat)
deriving DecidableEq, Repr

namespace FileFault

/-- A file is expected, and there is a directory. -/
def isDirectory : FileFault := system "Is a directory" 21

/-- A directory is expected, and there is a file. -/
def notDirectory : FileFault := system "Not a directory" 20

/-- The system does not accept names as long as this. -/
def nameTooLong : FileFault := system "File name too long" 36

/-- The system does not allow the access. -/
def permissionDenied : FileFault := system "Permission denied" 13

/-- The text of a fault. -/
def message : FileFault → String
  | notFound => "No such file or directory (os error 2)"
  | system description code => description ++ " (os error " ++ code.repr ++ ")"

end FileFault

/-- A place to read files from and write files to. -/
structure Storage (m : Type → Type) where
  /-- The bytes of a file. -/
  read : String → m (Except FileFault Bytes)
  /-- Makes a file hold the given bytes and no others. -/
  write : String → Bytes → m (Except FileFault Unit)

/-! ### A storage held in a value -/

/-- Files below a working directory, each with the names that lead to it. There are as
many directories as the files need. -/
structure FileTree where
  files : List (List String × Bytes) := []
deriving DecidableEq

namespace FileTree

/-- What a path leads to. -/
inductive Target where
  | directory
  | file (names : List String) (content : Bytes)
  /-- Nothing, in a directory that a file could be put into. -/
  | vacant (names : List String)

/-- Whether there is a directory at the given names. -/
def hasDirectory (t : FileTree) (names : List String) : Bool :=
  names = [] || t.files.any fun f => names.isPrefixOf f.1 && f.1 ≠ names

/-- The bytes of the file at the given names. -/
def content? (t : FileTree) (names : List String) : Option Bytes :=
  (t.files.find? (·.1 = names)).map (·.2)

/-- The tree with a file holding the given bytes. -/
def put (t : FileTree) (names : List String) (content : Bytes) : FileTree :=
  ⟨t.files.filter (·.1 ≠ names) ++ [(names, content)]⟩

/-- Follows the components of a path from a directory. The directory is `none` once the
path has led out of the tree; nothing is known there but directories. -/
def follow (t : FileTree) : Option (List String) → List String → Except FileFault Target
  | _, [] => .ok .directory
  | here, "" :: path => follow t here path
  | here, "." :: path => follow t here path
  | none, ".." :: path => follow t none path
  -- Above the working directory there are directories, but no file is known.
  | some [], ".." :: path => follow t none path
  | some here, ".." :: path => follow t (some here.dropLast) path
  | here, name :: path =>
    -- The length of a name is looked at before anything else about it.
    if 255 < name.utf8ByteSize then .error .nameTooLong
    else match here with
    | none => .error .notFound
    | some here =>
      let names := here ++ [name]
      if t.hasDirectory names then follow t (some names) path
      else match t.content? names with
      | some content => if path = [] then .ok (.file names content) else .error .notDirectory
      | none => if path = [] then .ok (.vacant names) else .error .notFound

/-- The components of a path, which stand between its slashes. -/
def components (path : String) : List String :=
  (path.toList.splitOn '/').map String.ofList

/-- What a path leads to, seen from the working directory. A slash at the start leads out of
the tree at once. -/
def target (t : FileTree) (path : String) : Except FileFault Target :=
  if path = "" then .error .notFound
  else if 4095 < path.utf8ByteSize then .error .nameTooLong
  else follow t (if path.toList.head? = some '/' then none else some []) (components path)

/-- The bytes of the file at a path. -/
def read (t : FileTree) (path : String) : Except FileFault Bytes := do
  match ← t.target path with
  | .directory => throw .isDirectory
  | .file _ content => return content
  | .vacant _ => throw .notFound

/-- The tree after a file was written. -/
def write (t : FileTree) (path : String) (bytes : Bytes) : Except FileFault FileTree := do
  match ← t.target path with
  | .directory => throw .isDirectory
  | .file names _ | .vacant names => return t.put names bytes

/-- A file tree as a storage. -/
def storage : Storage (StateM FileTree) where
  read path := return (← get).read path
  write path bytes := do
    match (← get).write path bytes with
    | .ok t => set t; return .ok ()
    | .error f => return .error f

end FileTree

end TinyAsm
