import NestedPascal.CommandLine.FileError
import NestedPascal.Register

/-!
# File trees

A tree of files kept in memory.  A place in it is the list of
names that leads there from the root.  A path is followed name by name: every name but the last must
be that of a directory, one dot stays and two dots go up, and a slash at the end asks for a
directory.  Names and paths have a greatest length in bytes; a path that is too long is not followed
at all, a name that is too long is only noticed where it is looked up.
-/

namespace NestedPascal

abbrev Place := List String

/-- What a file holds, as the pieces that were written to it, the last one first. -/
structure FileContent where
  pieces : List (List UInt8)

namespace FileContent

def empty : FileContent := ⟨[]⟩

def ofBytes (bytes : List UInt8) : FileContent := ⟨[bytes]⟩

def bytes (c : FileContent) : List UInt8 :=
  c.pieces.reverse.flatten

def append (c : FileContent) (bytes : List UInt8) : FileContent :=
  ⟨bytes :: c.pieces⟩

end FileContent

structure FileTree where
  files : Register Place FileContent
  /-- Directories that are there even if no file is below them. -/
  directories : List Place

namespace FileTree

/-- The path that names a place from the root. -/
def pathOf (place : Place) : String :=
  "/" ++ "/".intercalate place

/-- Whether a place is a directory: the root, a directory on its own, or on the way to something. -/
def isDirectory (t : FileTree) (place : Place) : Bool :=
  place.isEmpty || t.directories.any place.isPrefixOf ||
    t.files.entries.any fun f => place.length < f.1.length && place.isPrefixOf f.1

def isFile (t : FileTree) (place : Place) : Bool :=
  (t.files.get? place).isSome

/-- The greatest length of a name. -/
def greatestName : Nat := 255

/-- The greatest length of a path. -/
def greatestPath : Nat := 4095

def isLongName (name : String) : Bool :=
  greatestName < name.utf8ByteSize

/-- Refuses a path that leads nowhere, whatever the tree. -/
def requirePath (path : String) : Except FileError Unit :=
  if path.isEmpty then .error .missing
  else if greatestPath < path.utf8ByteSize then .error .nameTooLong
  else .ok ()

/-- Follows names from a place. -/
def follow (t : FileTree) : Place → List String → Except FileError Place
  | here, [] => .ok here
  | here, name :: rest =>
    if t.isFile here then .error .notDirectory
    else if name = "." then t.follow here rest
    else if name = ".." then t.follow here.dropLast rest
    else if isLongName name then .error .nameTooLong
    else
      let next := here ++ [name]
      if t.isFile next || t.isDirectory next then t.follow next rest else .error .missing

/-- The names of a path, and whether a slash ends it. -/
def namesOf (path : String) : List String × Bool :=
  ((path.splitOn "/").filter (· ≠ ""), path.toList.getLast? == some '/')

/-- The place where the names of a path start: the root, or the current directory. -/
def origin (current : Place) (path : String) : Place :=
  if path.toList.head? = some '/' then [] else current

/-- The place that a path leads to. -/
def find (t : FileTree) (current : Place) (path : String) : Except FileError Place := do
  requirePath path
  let (names, asksDirectory) := namesOf path
  t.follow (origin current path) (if asksDirectory then names ++ ["."] else names)

def read (t : FileTree) (current : Place) (path : String) : Except FileError (List UInt8) := do
  let place ← t.find current path
  match t.files.get? place with
  | some content => .ok content.bytes
  | none => .error .directory

/-- The place of the file that a path names, which need not be there yet. -/
def placeToWrite (t : FileTree) (current : Place) (path : String) : Except FileError Place := do
  requirePath path
  let (names, asksDirectory) := namesOf path
  match names.getLast? with
  | none => .error .directory
  | some last =>
    if last = "." ∨ last = ".." then
      let _ ← t.follow (origin current path) names
      .error .directory
    else
      let parent ← t.follow (origin current path) (names.dropLast ++ ["."])
      let place := parent ++ [last]
      if asksDirectory then .error .directory
      else if isLongName last then .error .nameTooLong
      else if t.isDirectory place then .error .directory
      else .ok place

/-- Makes the file at a place empty, or a new one if there is none. -/
def create (t : FileTree) (place : Place) : FileTree :=
  { t with files := t.files.set place .empty }

/-- Writes a text at the end of the file at a place. -/
def append (t : FileTree) (place : Place) (text : String) : FileTree :=
  let content := (t.files.get? place).getD .empty
  { t with files := t.files.set place (content.append text.toUTF8.toList) }

end FileTree

end NestedPascal
