import Scripting.Diagnostic.Basic
import Scripting.Source.Lines
import Scripting.Text.Blank

/-!
# Showing diagnostics

* `Diagnostic.text` : one line, and one for each note;
* `Diagnostic.shownLine?` : the number of the line that a diagnostic points at;
* `Diagnostic.render` : several lines, with the source line that the diagnostic points at.
-/

namespace Scripting

set_option autoImplicit false

/-- The text with blanks in front that bring it to at least `width` characters. -/
def Text.alignRight (width : Nat) (s : String) : String :=
  String.ofList (List.replicate (width - s.length) ' ') ++ s

namespace Diagnostic

/-- The fault on one line, and one line more for each note. -/
def text (d : Diagnostic) : String :=
  let line := match d.line with
    | some line => "[line " ++ toString line ++ "] "
    | none => ""
  let location := match d.location with
    | some location => " " ++ location.text
    | none => ""
  line ++ d.phase.label ++ " error" ++ location ++ ": " ++ d.message
    ++ String.join (d.notes.map fun note => "\n  note: " ++ note)

/-- The number of the line that the diagnostic points at: its own, else the one of its span. -/
def shownLine? (d : Diagnostic) (source : String) : Option Nat :=
  d.line.or (d.offset?.map (Source.lineAt source.toList))

/-- The lines that quote line `number` of the source; none if there is no such line. -/
def excerpt (source : String) (number : Nat) : String :=
  match Source.line? source.toList number with
  | some line =>
    "   |\n" ++ Text.alignRight 3 (toString number) ++ "|  "
      ++ String.ofList (Text.trimBlankChars line) ++ "\n   |\n"
  | none => ""

/-- The fault for a reader: what and where it is, the source line that it points at, and the notes.
-/
def render (d : Diagnostic) (source scriptName : String) : String :=
  let location := match d.location with
    | some location => " " ++ location.text
    | none => ""
  let place := match d.shownLine? source with
    | some number =>
      "  --> " ++ scriptName ++ " : line " ++ toString number ++ "\n" ++ excerpt source number
    | none => "  --> " ++ scriptName ++ "\n"
  "error[" ++ d.phase.label ++ "]" ++ location ++ ": " ++ d.message ++ "\n" ++ place
    ++ String.join (d.notes.map fun note => "  note: " ++ note ++ "\n")

end Diagnostic

end Scripting
