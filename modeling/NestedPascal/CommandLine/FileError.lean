/-!
# File errors

Why a file cannot be read or written, and how that is told.
-/

namespace NestedPascal

inductive FileError where
  | missing
  /-- A file stands where the path needs a directory. -/
  | notDirectory
  /-- A directory stands where the path needs a file. -/
  | directory
  | denied
  | nameTooLong
  | other (text : String)
deriving DecidableEq, Repr

namespace FileError

def text : FileError → String
  | missing => "ENOENT: no such file or directory"
  | notDirectory => "ENOTDIR: not a directory"
  | directory => "EISDIR: illegal operation on a directory"
  | denied => "EACCES: permission denied"
  | nameTooLong => "ENAMETOOLONG: name too long"
  | other text => text

/-- The message when opening a file fails. -/
def openMessage (path : String) (e : FileError) : String :=
  e.text ++ ", open '" ++ path ++ "'"

/-- The message when reading a file fails.  A directory can be opened, but not read. -/
def readMessage (path : String) (e : FileError) : String :=
  if e = directory then e.text ++ ", read" else e.openMessage path

/-- The message when writing to an open file fails. -/
def writeMessage (e : FileError) : String :=
  e.text ++ ", write"

/-- The message when closing a file fails. -/
def closeMessage (e : FileError) : String :=
  e.text ++ ", close"

end FileError

end NestedPascal
