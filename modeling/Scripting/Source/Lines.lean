import Scripting.Source.Span

/-!
# The lines of a source text

* `lines` : the lines of a text; a line feed ends a line, a carriage return before it belongs to the
  ending, and nothing follows the last line feed;
* `line?` : the line of a number;
* `lineAt` : the number of the line that holds a byte offset.
-/

namespace Scripting.Source

set_option autoImplicit false

/-- The line without the carriage return that ends it, if one does. -/
def dropReturn (line : List Char) : List Char :=
  match line.getLast? with
  | some '\r' => line.dropLast
  | _ => line

/-- The lines of `cs`, of which `current` has been read of the first one, backwards. A carriage
return is cut off only where a line feed follows it. -/
def linesFrom (current : List Char) : List Char → List (List Char)
  | [] => if current.isEmpty then [] else [current.reverse]
  | c :: cs =>
    if c = '\n' then dropReturn current.reverse :: linesFrom [] cs
    else linesFrom (c :: current) cs

/-- The lines of a text. -/
def lines (cs : List Char) : List (List Char) := linesFrom [] cs

/-- The text of line `number`, the first line being 1; a number 0 is read as 1. -/
def line? (cs : List Char) (number : Nat) : Option (List Char) := (lines cs)[number - 1]?

/-- The number of line feeds among the characters that start before byte `offset`, where the text
starts at byte `start`. -/
def feedsBefore (offset start : Nat) : List Char → Nat
  | [] => 0
  | c :: cs =>
    if start < offset then
      (if c = '\n' then 1 else 0) + feedsBefore offset (start + c.utf8Size) cs
    else 0

/-- The number of the line that holds byte `offset`, the first line being 1. -/
def lineAt (cs : List Char) (offset : Nat) : Nat := feedsBefore offset 0 cs + 1

end Scripting.Source
