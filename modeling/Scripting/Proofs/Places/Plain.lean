import Scripting.Proofs.Move.Programs
import Scripting.Proofs.Places.Formed

/-!
# Where names are declared

* `Part.Plain` : the statements of a branch and the body of a loop declare no names, wherever they
  lie in a part;
* `Program.formed_of_parse?`, `Program.plain_of_parse?` : a program that was read reports its faults
  at words of the text, and is plain.

So each declaration is an element of the list of a scope. In a tree that was made otherwise a branch
could bind a name in a scope that does not declare it.
-/

namespace Scripting

set_option autoImplicit false

/-- Whatever lies in the part is tidy. -/
def Part.Plain (part : Part) : Prop := part.Everywhere Tidy

namespace Program

variable {source : String} {ss : List Stmt}

/-- A program that was read is as the grammar makes it of the words of the text. -/
theorem formed_of_parse? (h : parse? source = .ok ss) : (Part.stmts ss).Everywhere
    (Part.Formed (· ∈ Scan.words .origin (pieces source.toList))) :=
  ((parse?_eq_ok source ss).1 h).2.formed fun _ ht => ht

/-- A program that was read declares names in the lists of scopes only. -/
theorem plain_of_parse? (h : parse? source = .ok ss) : (Part.stmts ss).Plain :=
  (formed_of_parse? h).mono fun _ formed => formed.tidy

end Program

end Scripting
