import RetroScript.CommandLine

/-! The program itself: the command line in the real world. -/
namespace RetroScript.CommandLine

def emit (stream : IO.FS.Stream) (bytes : ByteArray) : IO Unit := do
  unless bytes.isEmpty do
    stream.write bytes
    stream.flush

/-- Reads bytes through the next line feed, after those read so far. -/
partial def readLine (stream : IO.FS.Stream) (line : ByteArray) : IO ByteArray := do
  let next ← stream.read 1
  if next.isEmpty then return line
  let line := line ++ next
  if next.toList = [10] then return line
  readLine stream line

def reason : IO.Error → String
  | .noFileOrDirectory .. => "No such file or directory (os error 2)"
  | .permissionDenied .. => "Permission denied (os error 13)"
  | .resourceExhausted .. => "No space left on device (os error 28)"
  | e => toString e

def readText (path : String) : IO (Except String String) := do
  try
    match String.fromUTF8? (← IO.FS.readBinFile path) with
    | some text => return .ok text
    | none => return .error "stream did not contain valid UTF-8"
  catch e => return .error (reason e)

/-- Writes all of a file that has been created. -/
def fill (handle : IO.FS.Handle) (path : String) (bytes : ByteArray) : IO (Option String) := do
  try
    handle.write bytes
    handle.flush
    return none
  catch e => return some (unwritable path (reason e))

def save (path : String) (bytes : ByteArray) : IO (Option String) := do
  match ← (IO.FS.Handle.mk path .write).toBaseIO with
  | .ok handle => fill handle path bytes
  | .error e => return some (uncreatable path (reason e))

def world : World IO where
  text := readText
  save := save
  out bytes := do emit (← IO.getStdout) bytes
  err bytes := do emit (← IO.getStderr) bytes
  line := do return (← readLine (← IO.getStdin) ByteArray.empty).toList

/-- Takes a machine to its end, however long that takes. -/
partial def drive (s : Machine.State) : IO Interpreter.Outcome := do
  match s.outcome? with
  | some outcome => return (outcome, s.it)
  | none => drive (← world.advance s)

end RetroScript.CommandLine

open RetroScript.CommandLine in
def main (args : List String) : IO UInt32 := do
  match Options.read {} args with
  | some options =>
    let bytes ← IO.getRandomBytes 8
    let chance := bytes.foldl (fun n b => n * 256 + b.toUInt64) (0 : UInt64)
    return (← world.perform drive (options.job chance)).toUInt32
  | none =>
    IO.eprintln "Usage: benji [OPTIONS] [FILE]"
    return 2
