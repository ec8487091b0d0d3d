import Scripting.Source.Span

/-!
# Tokens

* `Kind` : the kinds of tokens;
* `Literal` : the values that can be written down;
* `Token` : a word of a source text with its kind, its literal and its place;
* `Kind.ofWord` : the kind of a word made of letters (`Kind.ofWord_keywords`).
-/

namespace Scripting

set_option autoImplicit false

/-- The kinds of tokens. -/
inductive Kind
  | identifier | int | float | string
  | elseWord | falseWord | forWord | fnWord | ifWord | returnWord | trueWord | letWord | whileWord
  | breakWord | continueWord | nullWord
  | leftParen | rightParen | leftBrace | rightBrace | comma | dot | semicolon
  | plus | plusEqual | minus | minusEqual | star | starEqual | slash | slashEqual
  | bang | bangEqual | assign | equalEqual | less | lessEqual | greater | greaterEqual
  | and | or
  | endOfInput
  deriving DecidableEq, Repr, Inhabited

/-- A value that can be written down. A float is kept as its binary64 bits. -/
inductive Literal
  | int (value : Int64)
  | float (bits : UInt64)
  | bool (value : Bool)
  | string (value : String)
  | null
  deriving DecidableEq

/-- A word of a source text. The line is the one on which the word ends. -/
structure Token where
  kind : Kind
  lexeme : String
  literal : Option Literal
  line : Nat
  span : Span
  deriving DecidableEq

instance : Inhabited Token := ⟨.endOfInput, "", none, 1, ⟨0, 0⟩⟩

namespace Kind

/-- The words that are no identifiers, with their kinds. -/
def keywords : List (String × Kind) :=
  [("and", and), ("or", or), ("else", elseWord), ("false", falseWord), ("for", forWord),
    ("fn", fnWord), ("if", ifWord), ("return", returnWord), ("true", trueWord), ("let", letWord),
    ("while", whileWord), ("break", breakWord), ("continue", continueWord), ("null", nullWord)]

/-- The kind of a word made of letters, digits and underscores. -/
def ofWord (word : String) : Kind := (keywords.lookup word).getD identifier

/-- A keyword has its own kind, and any other word is an identifier. -/
theorem ofWord_keywords (word : String) : (word, ofWord word) ∈ keywords ∨
    ofWord word = identifier ∧ ∀ kind, (word, kind) ∉ keywords := by
  unfold ofWord
  cases hlookup : keywords.lookup word with
  | none =>
    refine .inr ⟨rfl, fun kind hmem => ?_⟩
    have hne := List.lookup_eq_none_iff.1 hlookup _ hmem
    simp at hne
  | some kind =>
    obtain ⟨before, behind, hsplit, -⟩ := List.lookup_eq_some_iff.1 hlookup
    refine .inl ?_
    rw [hsplit]
    exact List.mem_append_right _ List.mem_cons_self

/-- The keywords that begin a statement, at which reading resumes after an error. -/
def startsStatement : Kind → Bool
  | forWord | fnWord | ifWord | returnWord | letWord | whileWord => true
  | _ => false

end Kind

namespace Token

/-- The token that ends a text at the given place. -/
def ending (line offset : Nat) : Token := ⟨.endOfInput, "", none, line, ⟨offset, offset⟩⟩

/-- Another word standing in the place of this token. -/
def standIn (t : Token) (kind : Kind) (lexeme : String) : Token :=
  { t with kind, lexeme, literal := none }

end Token

end Scripting
