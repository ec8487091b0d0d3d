import Scripting.Parser.Grammar
import Scripting.Token.Scan

/-!
# Programs

* `endOf`, `beforeEnd` : the token that ends a list of tokens, and the tokens before it;
* `Program.read` : the statements that tokens write, and all faults in them;
* `Program.ofTokens?`, `Program.parse?` : the statements of tokens, or of a text, without faults.
-/

namespace Scripting

set_option autoImplicit false

/-- The token that ends the tokens `ts`: the first that stands for the end, else one put behind the
last token. -/
def endOf (ts : List Token) : Token :=
  match ts.find? (·.kind = .endOfInput) with
  | some t => t
  | none =>
    match ts.getLast? with
    | some t => .ending t.line t.span.stop
    | none => .ending 1 0

/-- The tokens before the end. -/
def beforeEnd (ts : List Token) : List Token := ts.takeWhile (·.kind ≠ .endOfInput)

/-- The statements of a program and the faults found in it. -/
structure Program where
  statements : List Stmt
  diagnostics : List Diagnostic

namespace Program

/-- The statements that the tokens `ahead` write, and all faults in them, where `ending` is the
token behind them. -/
def readAhead (ending : Token) (ahead : List Token) : Program :=
  let rules := Rules.level (ahead.length + 1)
  let reading := Parser.declarations rules.declaration false rules.bound ⟨ending, 0⟩ ahead
  match reading.result with
  | .ok statements => ⟨statements, reading.reports⟩
  | .error d => ⟨[], reading.reports ++ [d]⟩

/-- The statements that tokens write up to the first that stands for the end, and all faults in
them. -/
def read (ts : List Token) : Program := readAhead (endOf ts) (beforeEnd ts)

/-- The statements, or the faults if there are any. -/
def result (p : Program) : Except (List Diagnostic) (List Stmt) :=
  if p.diagnostics.isEmpty then .ok p.statements else .error p.diagnostics

/-- The statements that tokens write, or all faults in them. -/
def ofTokens? (ts : List Token) : Except (List Diagnostic) (List Stmt) := (read ts).result

/-- The statements of a text. Faults of single words come before all others. -/
def parse? (source : String) : Except (List Diagnostic) (List Stmt) := do
  ofTokens? (← tokens? source)

end Program

end Scripting
