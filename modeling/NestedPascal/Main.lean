import NestedPascal.CommandLine.Host
import NestedPascal.Time.Calendar
import Std.Time.DateTime.Timestamp

/-!
# The program on a real machine

The host that reads and writes the files of the machine, and the program's entry.
-/

namespace NestedPascal

private def fileErrorOf (e : IO.Error) : FileError :=
  match e with
  | .noFileOrDirectory .. => .missing
  | .permissionDenied .. => .denied
  | .invalidArgument _ _ details =>
    if details = "file name too long" then .nameTooLong else .other (toString e)
  | .inappropriateType _ _ details =>
    if details = "not a directory" then .notDirectory else .directory
  | e => .other (toString e)

private def attempt (action : IO α) : IO (Except FileError α) := do
  try
    let a ← action
    return .ok a
  catch e => return .error (fileErrorOf e)

/-- Opens a file.  Each text is written at once; that the file is closed is left to the machine. -/
private def createFile (path : String) : IO (Except FileError (OpenFile IO)) :=
  attempt do
    let handle ← IO.FS.Handle.mk path .write
    return {
      write := fun text => attempt do
        handle.putStr text
        handle.flush
      close := attempt handle.flush }

private def readFile (path : String) : IO (Except FileError (List UInt8)) :=
  attempt do
    let bytes ← IO.FS.readBinFile path
    return bytes.toList

private def isPresent (path : String) : IO Bool := do
  let here ← IO.currentDir
  (here / path).pathExists

private partial def readAll (stream : IO.FS.Stream) (read : ByteArray) : IO ByteArray := do
  let more ← stream.read 65536
  if more.isEmpty then return read else readAll stream (read ++ more)

private def randomRunId : IO String := do
  let high ← IO.rand 0 0xFFFFFFFF
  let middle ← IO.rand 0 0xFFFF
  let low ← IO.rand 0 0xFFFFFFFFFFFF
  let version ← IO.rand 0x4000 0x4FFF
  let variant ← IO.rand 0x8000 0xBFFF
  return "-".intercalate
    [hexDigits 8 high, hexDigits 4 middle, hexDigits 4 version, hexDigits 4 variant,
      hexDigits 12 low]

private def readClock : IO Time.Instant := do
  let now ← Std.Time.Timestamp.now
  return (Time.Instant.ofMillis? now.toMillisecondsSinceUnixEpoch.val).getD .epoch

def machineHost : IO (Host IO) := do
  let here ← IO.currentDir
  let home := (← IO.getEnv "HOME").getD "/"
  return {
    workingDirectory := here.toString
    homeDirectory := home
    faultWords := Json.Fault.message
    isPresent := isPresent
    read := readFile
    readInput := do
      let bytes ← readAll (← IO.getStdin) .empty
      return bytes.toList
    create := createFile
    clock := readClock
    runId := randomRunId }

end NestedPascal

open NestedPascal in
def main (args : List String) : IO UInt32 := do
  let host ← machineHost
  let reply ← host.answerArgs args
  IO.print reply.output
  IO.eprint reply.errors
  return reply.status.code.toUInt32
