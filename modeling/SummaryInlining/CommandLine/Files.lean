import SummaryInlining.CommandLine.DisplayedPath
import SummaryInlining.Data.Table

/-!
# Files of the command line

A file access fails for one of the reasons of `FileError`, each of which has a code and a wording.
`WorkingDirectory` is a directory that holds nothing but text files, with the outcome of reading
and writing by path. A path is followed step by step: a step by a name has to lead to a directory
unless it is the last one, and of the directories around the working directory nothing is known
but that they exist.
-/

set_option autoImplicit false

namespace SummaryInlining

namespace CommandLine

/-- Why a file cannot be read or written. -/
inductive FileError where
  | notFound
  | isDirectory
  /-- A part of the path that is used as a directory is none. -/
  | notDirectory
  /-- The path or a name in it is too long. -/
  | nameTooLong
  /-- The path holds the character that ends a path, which no name can hold. -/
  | terminator
  /-- Another reason, by its code and its wording. -/
  | other (code description : String)
  deriving DecidableEq

namespace FileError

def code : FileError → String
  | .notFound => "ENOENT"
  | .isDirectory => "EISDIR"
  | .notDirectory => "ENOTDIR"
  | .nameTooLong => "ENAMETOOLONG"
  | .terminator => "ERR_INVALID_ARG_VALUE"
  | .other code _ => code

/-- The wording of an error that came up when the file at `path` was to be read. -/
def readMessage (path : String) : FileError → String
  | .notFound => "ENOENT: no such file or directory, open '" ++ path ++ "'"
  | .isDirectory => "EISDIR: illegal operation on a directory, read"
  | .notDirectory => "ENOTDIR: not a directory, open '" ++ path ++ "'"
  | .nameTooLong => "ENAMETOOLONG: name too long, open '" ++ path ++ "'"
  | .terminator =>
    "The argument 'path' must be a string, Uint8Array, or URL without null bytes. Received "
      ++ displayedPath path
  | .other code description => code ++ ": " ++ description ++ ", open '" ++ path ++ "'"

end FileError

/-- The files of a directory without subdirectories. -/
structure WorkingDirectory where
  /-- The texts of the files, by name. -/
  files : Table String

/-- A directory that a path can lead through. -/
inductive Directory where
  /-- The working directory. -/
  | working
  /-- A directory around it. -/
  | outer
  deriving DecidableEq

/-- What a path leads to. -/
inductive Place where
  | directory
  /-- A name in a directory, possibly with a slash behind it. -/
  | entry (parent : Directory) (name : String) (slash : Bool)
  /-- Nothing that can be accessed. -/
  | nowhere (reason : FileError)

/-- The number of bytes that a path must be shorter than. -/
def pathLimit : Nat := 4096

/-- The number of bytes that a name in a path can have at most. -/
def nameLimit : Nat := 255

namespace WorkingDirectory

/-- Whether a directory is known to hold a file of this name. -/
def holds (directory : WorkingDirectory) : Directory → String → Bool
  | .working, name => directory.files.contains name
  | .outer, _ => false

/-- Follows the steps of a path from a directory on; `slash` tells whether a slash ends it. -/
def follow (directory : WorkingDirectory) (slash : Bool) : Directory → List String → Place
  | _, [] => .directory
  | parent, step :: rest =>
    if step = "." then directory.follow slash parent rest
    else if step = ".." then directory.follow slash .outer rest
    else if rest.isEmpty then .entry parent step slash
    else if nameLimit < step.utf8ByteSize then .nowhere .nameTooLong
    else if directory.holds parent step then .nowhere .notDirectory
    else .nowhere .notFound

/-- What a path leads to. -/
def place (directory : WorkingDirectory) (path : String) : Place :=
  if path.isEmpty then .nowhere .notFound
  else if path.toList.contains '\x00' then .nowhere .terminator
  else if pathLimit ≤ path.utf8ByteSize then .nowhere .nameTooLong
  else
    directory.follow (path.endsWith "/") (if path.startsWith "/" then .outer else .working)
      ((path.splitOn "/").filter fun step => step ≠ "")

def read (directory : WorkingDirectory) (path : String) : Except FileError String :=
  match directory.place path with
  | .directory => .error .isDirectory
  | .nowhere reason => .error reason
  | .entry parent name slash =>
    if nameLimit < name.utf8ByteSize then .error .nameTooLong
    else
      match parent, directory.files.find? name with
      | .working, some text => if slash then .error .notDirectory else .ok text
      | .working, none => .error .notFound
      | .outer, _ => .error .notFound

/-- The directory after a text was written to the file that a path leads to, which is created if it
does not exist. A slash behind its name asks for a directory. -/
def write (directory : WorkingDirectory) (path text : String) : Except FileError WorkingDirectory :=
  match directory.place path with
  | .directory => .error .isDirectory
  | .nowhere reason => .error reason
  | .entry parent name slash =>
    if slash then .error .isDirectory
    else if nameLimit < name.utf8ByteSize then .error .nameTooLong
    else
      match parent with
      | .working => .ok ⟨directory.files.insert name text⟩
      | .outer => .ok directory

end WorkingDirectory

end CommandLine

end SummaryInlining
