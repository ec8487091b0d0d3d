import Scripting.CommandLine.Execute
import Std.Time.DateTime.Timestamp

/-!
# The command

`main` reads what a command needs, lets `Scripting.CommandLine` do the work, and writes what comes
of it. Only here is there input and output.
-/

namespace Scripting.CommandLine

set_option autoImplicit false

/-- Why the system refuses a file. -/
def faultOfError : IO.Error → FileFault
  | .noFileOrDirectory .. => .notFound
  | .inappropriateType .. => .notDirectory
  | e => .other (toString e)

/-- What an action gives, or why the system refuses it. -/
def attempt {α : Type} (act : IO α) : IO (Except FileFault α) := do
  try
    let a ← act
    pure (.ok a)
  catch e => pure (.error (faultOfError e))

/-- The bytes of a file. -/
def readBytes (path : String) : IO (Except FileFault ByteArray) := do
  if (← attempt (IO.FS.realPath path >>= fun p => p.isDir)) matches .ok true then
    pure (.error .isDirectory)
  else attempt (IO.FS.readBinFile path)

/-- The names of the regular files in a directory. -/
def readNames (directory : String) : IO (Except FileFault (List String)) := attempt do
  let entries ← (← IO.FS.realPath directory).readDir
  let regular ← entries.filterM fun e => do
    match ← attempt e.path.metadata with
    | .ok data => pure (data.type == .file)
    | .error _ => pure false
  pure (regular.map (·.fileName)).toList

/-- The files whose paths are given, and the names in the given directory. -/
def readFiles (paths : List String) (directory : String) (names : Except FileFault (List String)) :
    IO Files := do
  let contents ← paths.mapM fun path => do
    let bytes ← readBytes path
    pure (path, bytes)
  pure
    { bytes := fun path => (contents.lookup path).getD (.error .notFound)
      names := fun path => if path = directory then names else .error .notFound }

/-- The files that a command needs. -/
def filesOf : Command → IO Files
  | .run scripts => readFiles scripts "" (.ok [])
  | .load directory => do
    let names ← readNames directory
    let scripts := (names.toOption.getD []).filter isScript
    readFiles (scripts.map (joinPath directory)) directory names
  | _ => readFiles [] "" (.ok [])

/-- Writes what is printed. -/
def put (printed : Printed) : IO Unit := do
  let out ← IO.getStdout
  out.write printed.out
  out.flush
  (← IO.getStderr).putStr printed.err

/-- The rest of a line of the input, with the line feed that ends it, if one does. -/
partial def readLine (input : IO.FS.Stream) (line : ByteArray) : IO ByteArray := do
  let next ← input.read 1
  if next.isEmpty then pure line
  else if next.data = #[10] then pure (line ++ next)
  else readLine input (line ++ next)

/-- Runs the lines of the input one by one, and gives the exit code. -/
partial def converse (input : IO.FS.Stream) (session : Session) : IO UInt32 := do
  let line ← readLine input .empty
  if line.isEmpty then pure 0
  else
    match session.enter line with
    | .over printed ok =>
      put printed
      pure (if ok then 0 else 1)
    | .goesOn printed session =>
      put printed
      converse input session

/-- The time in nanoseconds since the beginning of 1970. -/
def now : IO Nat := do
  let time ← Std.Time.Timestamp.now
  pure time.toNanosecondsSinceUnixEpoch.toInt.toNat

end Scripting.CommandLine

open Scripting.CommandLine in
/-- Runs the command that the arguments name. -/
def main (arguments : List String) : IO UInt32 := do
  let start ← now
  let found ← Scripting.Filter.variableNames.mapM fun name => do
    let value ← IO.getEnv name
    pure (name, value)
  let environment := fun name => (found.lookup name).join
  let settings : Settings :=
    { time := toString (start / 1000000000)
      clock := fun reading => (start.toFloat + reading.toFloat * 1000) / 1000000000 }
  match Request.ofArguments arguments with
  | .invoke ⟨log, .repl⟩ =>
    converse (← IO.getStdin) (.start { settings with filter := .choose log environment })
  | request =>
    let files ← match request with
      | .invoke invocation => filesOf invocation.command
      | _ => readFiles [] "" (.ok [])
    let a := answer settings { environment, files, input := .empty } arguments
    put a.printed
    pure a.exitCode.toUInt32
