/-!
# Arguments of a command

* `Command` : what a command does;
* `Request` : a command with the filter of its log, a question for the version or for help, or a
  misuse;
* `Request.ofArguments` : reads the arguments of a command.
-/

namespace Scripting.CommandLine

set_option autoImplicit false

/-- What a command does. -/
inductive Command
  | run (scripts : List String)
  | load (directory : String)
  | eval (source : String)
  | repl
  deriving DecidableEq, Repr

/-- A command and the text of the filter for its log, if one is given. -/
structure Invocation where
  log : Option String
  command : Command
  deriving DecidableEq, Repr

/-- What the arguments ask for. -/
inductive Request
  | invoke (invocation : Invocation)
  | version
  | help
  | misuse
  deriving DecidableEq, Repr

/-- The arguments of one level, sorted: the values of the filter option, and all others. -/
structure Sorted where
  logs : List String
  others : List String
  deriving DecidableEq, Repr

namespace Sorted

/-- Whether an argument is read as the name of an option. A dash alone is not. -/
def isOption (argument : String) : Bool := argument.startsWith "-" && argument ≠ "-"

/-- The value that is attached to the filter option. -/
def attached? (argument : String) : Option String :=
  if argument.startsWith "--log=" then some (String.ofList (argument.toList.drop 6)) else none

/-- Whether an argument asks for help. -/
def isHelp (argument : String) : Bool := argument = "--help" || argument.startsWith "-h"

/-- Sorts the arguments behind a subcommand, unless they ask for help or are misused. Behind two
dashes nothing is an option. -/
def ofArguments : List String → Except Request Sorted
  | [] => .ok ⟨[], []⟩
  | "--" :: rest => .ok ⟨[], rest⟩
  | "--log" :: value :: rest =>
    if isOption value then .error .misuse
    else (ofArguments rest).map fun s => { s with logs := value :: s.logs }
  | argument :: rest =>
    match attached? argument with
    | some value => (ofArguments rest).map fun s => { s with logs := value :: s.logs }
    | none =>
      if isHelp argument then .error .help
      else if isOption argument then .error .misuse
      else (ofArguments rest).map fun s => { s with others := argument :: s.others }

end Sorted

namespace Command

/-- The command of a subcommand and the arguments behind it. A path must not be empty. -/
def ofWords? (name : String) (arguments : List String) : Option Command :=
  match name, arguments with
  | "run", scripts => if scripts.isEmpty || scripts.contains "" then none else some (run scripts)
  | "load", [directory] => if directory.isEmpty then none else some (load directory)
  | "eval", [source] => some (eval source)
  | "repl", [] => some repl
  | _, _ => none

end Command

namespace Request

/-- The names of the subcommands. -/
def subcommands : List String := ["run", "load", "eval", "repl", "help"]

/-- The request of a subcommand and the arguments behind it, where `log` was given before. A filter
may be given once before the subcommand and once behind it, and the latter counts. -/
def ofSubcommand (log : Option String) (name : String) (arguments : List String) : Request :=
  if name = "help" then if arguments.all subcommands.contains then help else misuse
  else
    match Sorted.ofArguments arguments with
    | .error request => if subcommands.contains name then request else misuse
    | .ok sorted =>
      match sorted.logs, Command.ofWords? name sorted.others with
      | [], some command => invoke ⟨log, command⟩
      | [value], some command => invoke ⟨some value, command⟩
      | _, _ => misuse

/-- The request of arguments, where `log` has been read of them. -/
def ofRest (log : Option String) : List String → Request
  | [] => invoke ⟨log, .repl⟩
  | ["--"] => invoke ⟨log, .repl⟩
  | "--version" :: _ => version
  | "--log" :: value :: rest =>
    if Sorted.isOption value || log.isSome then misuse else ofRest (some value) rest
  | argument :: rest =>
    match Sorted.attached? argument with
    | some value => if log.isSome then misuse else ofRest (some value) rest
    | none =>
      if argument.startsWith "-V" then version
      else if Sorted.isHelp argument then help
      else if Sorted.isOption argument then misuse
      else ofSubcommand log argument rest

/-- The request of arguments. Without a subcommand it is a session. -/
def ofArguments (arguments : List String) : Request := ofRest none arguments

end Request

end Scripting.CommandLine
