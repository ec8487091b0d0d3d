import Scripting.Diagnostic.Basic

/-!
# Parsers of tokens

* `Parser` : a function of the tokens that lie ahead, which gives a result or a fault, the tokens
  left, and the faults that it reported without stopping;
* `peek`, `accept?`, `accept`, `consume` : looking at the next token and taking it;
* `failAt`, `reportAt` : stopping at a fault, and going on after one;
* `nested` : counts how deep a construct lies in others, up to `maxNesting`;
* `recovering` : turns a fault into a report and skips to where a statement may begin
  (`length_resume_le`);
* `chain`, `items`, `declarations` : operands joined by operators, lists separated by commas, and
  declarations, each up to a bound.
-/

namespace Scripting

set_option autoImplicit false

/-- The greatest number of parameters of a function, and of arguments of a call. -/
def maxItems : Nat := 255

/-- The greatest number of constructs that may lie in each other. -/
def maxNesting : Nat := 512

/-- What a parser knows besides the tokens ahead: the token that stands for their end, and how many
constructs are open. -/
structure Surroundings where
  ending : Token
  depth : Nat

/-- What came of a parser: its result or the fault at which it stopped, the tokens left, and the
faults reported on the way. -/
structure Reading (α : Type) where
  result : Except Diagnostic α
  rest : List Token
  reports : List Diagnostic

/-- A parser of tokens; the token that stands for the end is not among those ahead. -/
def Parser (α : Type) : Type := Surroundings → List Token → Reading α

namespace Parser

variable {α β ω : Type}

instance : Monad Parser where
  pure a := fun _ ts => ⟨.ok a, ts, []⟩
  bind p f := fun s ts =>
    match p s ts with
    | ⟨.ok a, rest, reports⟩ =>
      let r := f a s rest
      ⟨r.result, r.rest, reports ++ r.reports⟩
    | ⟨.error d, rest, reports⟩ => ⟨.error d, rest, reports⟩

/-! ## The next token -/

/-- The next token, which stays. -/
def peek : Parser Token := fun s ts => ⟨.ok (ts.headD s.ending), ts, []⟩

/-- Takes the next token if `f` gives a value for its kind. -/
def accept? (f : Kind → Option α) : Parser (Option (α × Token)) := fun _ ts =>
  match ts with
  | [] => ⟨.ok none, [], []⟩
  | t :: rest =>
    match f t.kind with
    | some a => ⟨.ok (some (a, t)), rest, []⟩
    | none => ⟨.ok none, t :: rest, []⟩

/-- Takes the next token if it has the given kind. -/
def accept (kind : Kind) : Parser (Option Token) := fun _ ts =>
  match ts with
  | [] => ⟨.ok none, [], []⟩
  | t :: rest => if t.kind = kind then ⟨.ok (some t), rest, []⟩ else ⟨.ok none, t :: rest, []⟩

/-- Drops the next token. -/
def skip : Parser Unit := fun _ ts => ⟨.ok (), ts.tail, []⟩

/-- Stops with a fault at the token `t`. -/
def failAt (fault : ParseFault) (t : Token) : Parser α := fun _ ts =>
  ⟨.error (.atToken (.parse fault) t), ts, []⟩

/-- Reports a fault at the token `t` and goes on. -/
def reportAt (fault : ParseFault) (t : Token) : Parser Unit := fun _ ts =>
  ⟨.ok (), ts, [.atToken (.parse fault) t]⟩

/-- Stops with a fault at the next token. -/
def fail (fault : ParseFault) : Parser α := do failAt fault (← peek)

/-- Takes the next token, which must have the given kind. -/
def consume (kind : Kind) (fault : ParseFault) : Parser Token := do
  match ← accept kind with
  | some t => pure t
  | none => fail fault

/-! ## Depth and recovery -/

/-- Reads a construct that lies one deeper; there is a fault at the next token if that is too deep.
-/
def nested (p : Parser α) : Parser α := fun s ts =>
  if maxNesting ≤ s.depth then fail .tooMuchNesting s ts else p { s with depth := s.depth + 1 } ts

/-- Drops tokens until the one dropped last, at first `last`, is a semicolon or the next one begins
a statement. -/
def resumeAfter (last : Token) : List Token → List Token
  | [] => []
  | t :: ts =>
    if last.kind = .semicolon ∨ t.kind.startsStatement then t :: ts else resumeAfter t ts

/-- The tokens at which reading goes on after a fault at or before the next one. -/
def resume : List Token → List Token
  | [] => []
  | t :: ts => resumeAfter t ts

/-- Reports the fault at which `p` stops, if it does, and goes on where a statement may begin. -/
def recovering (p : Parser α) : Parser (Option α) := fun s ts =>
  match p s ts with
  | ⟨.ok a, rest, reports⟩ => ⟨.ok (some a), rest, reports⟩
  | ⟨.error d, rest, reports⟩ => ⟨.ok none, resume rest, reports ++ [d]⟩

theorem length_resumeAfter_le (last : Token) (ts : List Token) :
    (resumeAfter last ts).length ≤ ts.length := by
  fun_induction resumeAfter last ts with
  | case1 => simp
  | case2 => simp
  | case3 _ _ _ _ ih => simp only [List.length_cons]; omega

/-- Recovery drops a token unless there is none. -/
theorem length_resume_le (ts : List Token) : (resume ts).length ≤ ts.length - 1 := by
  cases ts with
  | nil => simp [resume]
  | cons t ts => simpa [resume] using length_resumeAfter_le t ts

/-! ## Repetition -/

/-- The operands behind `left`, each with an operator before it, joined from left to right. -/
def chainFrom (op? : Kind → Option ω) (join : ω → Token → α → α → α) (operand : Parser α) :
    (bound : Nat) → (left : α) → Parser α
  | 0, left => pure left
  | bound + 1, left => do
    match ← accept? op? with
    | some (op, mark) =>
      let right ← operand
      chainFrom op? join operand bound (join op mark left right)
    | none => pure left

/-- Operands joined by operators, at most `bound` of these, from left to right. -/
def chain (bound : Nat) (op? : Kind → Option ω) (join : ω → Token → α → α → α)
    (operand : Parser α) : Parser α := do
  let left ← operand
  chainFrom op? join operand bound left

/-- One item or more, separated by commas, at most `bound`, `count` having been read before. An item
too many is reported and read all the same. -/
def itemsFrom (item : Parser α) (tooMany : ParseFault) : (bound count : Nat) → Parser (List α)
  | 0, _ => pure []
  | bound + 1, count => do
    if maxItems ≤ count then reportAt tooMany (← peek)
    let first ← item
    match ← accept .comma with
    | some _ =>
      let others ← itemsFrom item tooMany bound (count + 1)
      pure (first :: others)
    | none => pure [first]

/-- The items before a closing parenthesis, at most `bound`, separated by commas. -/
def items (bound : Nat) (item : Parser α) (tooMany : ParseFault) : Parser (List α) := do
  match (← peek).kind with
  | .rightParen => pure []
  | _ => itemsFrom item tooMany bound 0

/-- The declarations, at most `bound`, up to the end, or up to a closing brace if `inBlock`. -/
def declarations (declaration : Parser (Option α)) (inBlock : Bool) :
    (bound : Nat) → Parser (List α)
  | 0 => pure []
  | bound + 1 => do
    let next ← peek
    if next.kind = .endOfInput ∨ (inBlock ∧ next.kind = .rightBrace) then pure []
    else
      let first ← declaration
      let others ← declarations declaration inBlock bound
      pure (first.toList ++ others)

end Parser

end Scripting
