import Scripting.CommandLine.Arguments
import Scripting.CommandLine.Files
import Scripting.CommandLine.Session

/-!
# What a command does

* `isScript` : which files of a directory are scripts;
* `Settings.runScripts` : runs scripts, each by itself;
* `Settings.execute` : does what a command says;
* `Circumstances`, `Answer`, `answer` : what a command meets, and what it prints with its exit code.
-/

namespace Scripting.CommandLine

set_option autoImplicit false

/-- Whether a file name is that of a script: it ends in a dot and the extension, and does not begin
with that dot. -/
def isScript (name : String) : Bool := name.endsWith ".zn" && name ≠ ".zn"

/-- The path of a name in a directory. -/
def joinPath (directory name : String) : String :=
  if directory.endsWith "/" then directory ++ name else directory ++ "/" ++ name

namespace Settings

/-- Reads a script and runs it by itself. -/
def runFile (s : Settings) (files : Files) (path : String) : Printed × Bool :=
  let (printed, ok) := match files.text path with
    | .ok source => s.runScript path source
    | .error fault => (.ofErr ("error: cannot read " ++ path ++ ": " ++ fault.text ++ "\n"), false)
  (printed ++ .ofErr (s.logText none [.finished path ok]), ok)

/-- Runs scripts, each by itself, and tells whether all were run to their ends. -/
def runScripts (s : Settings) (files : Files) (paths : List String) : Printed × Bool :=
  paths.foldl (fun (printed, allOk) path =>
    let (more, ok) := s.runFile files path
    (printed ++ more, allOk && ok)) (.nothing, true)

/-- Runs the scripts in a directory, in the order of their names. -/
def loadDirectory (s : Settings) (files : Files) (directory : String) : Printed × Bool :=
  match files.names directory with
  | .error fault => (.ofErr ("error: I/O error: " ++ fault.text ++ "\n"), false)
  | .ok names =>
    let scripts := (names.filter isScript).mergeSort fun a b => a ≤ b
    let found := s.logText none [.discovered directory scripts.length]
    let (printed, ok) := s.runScripts files (scripts.map (joinPath directory))
    (.ofErr found ++ printed, ok)

/-- Does what a command says, and tells whether all went well. -/
def execute (s : Settings) (files : Files) (input : ByteArray) : Command → Printed × Bool
  | .run scripts => s.runScripts files scripts
  | .load directory => s.loadDirectory files directory
  | .eval source => s.runScript "<eval>" source
  | .repl => (Session.start s).run (byteLines input)

end Settings

/-- What a command prints, and its exit code. -/
structure Answer where
  printed : Printed
  exitCode : UInt8

/-- The text that tells the version. -/
def versionText : String := "zunu 0.1.0\n"

/-- The text that tells how a command is to be used. -/
def usageText : String :=
  "Usage: zunu [--log <LOG>] [run <SCRIPTS>... | load <DIR> | eval <SOURCE> | repl]\n"

/-- What a command meets: the variables of its environment, the files, and its input. -/
structure Circumstances where
  environment : String → Option String
  files : Files
  input : ByteArray

/-- What the command of the given arguments does. Its log has the filter that the arguments or the
environment name. -/
def answer (s : Settings) (c : Circumstances) (arguments : List String) : Answer :=
  match Request.ofArguments arguments with
  | .version => ⟨.ofOut versionText, 0⟩
  | .help => ⟨.ofOut usageText, 0⟩
  | .misuse => ⟨.ofErr usageText, 2⟩
  | .invoke invocation =>
    let s := { s with filter := .choose invocation.log c.environment }
    let (printed, ok) := s.execute c.files c.input invocation.command
    ⟨printed, if ok then 0 else 1⟩

end Scripting.CommandLine
