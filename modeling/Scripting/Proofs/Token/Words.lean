import Mathlib
import Scripting.Proofs.Token.Append

/-!
# The words of the language

* `Word text kind literal` : the text is a word of the kind, and writes the literal;
* `IsWord` : the words, among them the runs of digits whose number is too large for a literal;
* `Longest` : a text is the longest word at the front of what follows;
* `Comment` : the rest of a block comment behind the mark that opens it, with comments inside;
* `Piece.Role.Fits` : what it takes for a text to have a role before what is behind it.

None of this looks at how a text is cut into pieces.
-/

namespace Scripting

set_option autoImplicit false

open Piece (isSpace isNameStart isNamePart isMark)

/-! ## Words -/

/-- The symbols with their kinds. -/
def Kind.symbols : List (String × Kind) :=
  [("(", leftParen), (")", rightParen), ("\x7b", leftBrace), ("\x7d", rightBrace), (",", comma),
    (".", dot), (";", semicolon), ("+", plus), ("+=", plusEqual), ("-", minus), ("-=", minusEqual),
    ("*", star), ("*=", starEqual), ("/", slash), ("/=", slashEqual), ("!", bang),
    ("!=", bangEqual), ("=", assign), ("==", equalEqual), ("<", less), ("<=", lessEqual),
    (">", greater), (">=", greaterEqual), ("&&", and), ("||", or)]

/-- The text is a run of digits. -/
def IsDigits (text : List Char) : Prop := text ≠ [] ∧ ∀ c ∈ text, c.isDigit = true

/-- The number that digits write, each of which counts ten times as much as the next. -/
def decimal : List Char → Nat
  | [] => 0
  | c :: cs => (c.toNat - '0'.toNat) * 10 ^ cs.length + decimal cs

/-- The text is a word of the kind, and writes the literal if there is one. -/
inductive Word : List Char → Kind → Option Literal → Prop
  | keyword {text : List Char} {kind : Kind} (h : (String.ofList text, kind) ∈ Kind.keywords) :
      Word text kind none
  | name {c : Char} {cs : List Char} (hc : isNameStart c = true)
      (hcs : ∀ d ∈ cs, isNamePart d = true)
      (hname : ∀ kind, (String.ofList (c :: cs), kind) ∉ Kind.keywords) :
      Word (c :: cs) .identifier none
  | int {digits : List Char} {n : Int64} (hdigits : IsDigits digits)
      (hn : n.toInt = decimal digits) : Word digits .int (some (.int n))
  | float {whole fraction : List Char} (hwhole : IsDigits whole) (hfraction : IsDigits fraction) :
      Word (whole ++ '.' :: fraction) .float
        (some (.float
          (Float.ofScientific (decimal (whole ++ fraction)) true fraction.length).toBits))
  | string {content : List Char} (hcontent : '"' ∉ content) :
      Word ('"' :: content ++ ['"']) .string (some (.string (String.ofList content)))
  | symbol {text : List Char} {kind : Kind} (h : (String.ofList text, kind) ∈ Kind.symbols) :
      Word text kind none

/-- The text is a word. Digits are one even if their number is too large for a literal. -/
def IsWord (text : List Char) : Prop := IsDigits text ∨ ∃ kind literal, Word text kind literal

/-- No longer word is at the front of the text and what is behind it. -/
def Longest (text behind : List Char) : Prop :=
  ∀ longer, IsWord longer → longer <+: text ++ behind → longer.length ≤ text.length

/-! ## Comments -/

/-- The rest of a block comment, behind the mark that opens it up to the mark that closes it: the
comments in it are closed, and no other character in it begins a mark. -/
inductive Comment : List Char → Prop
  | close : Comment ['*', '/']
  | inner {cs ds : List Char} (hinner : Comment cs) (hrest : Comment ds) :
      Comment ('/' :: '*' :: cs ++ ds)
  | char {c : Char} {cs : List Char} (hmark : ¬ isMark c cs) (hrest : Comment cs) :
      Comment (c :: cs)

theorem Comment.ne_nil {cs : List Char} (h : Comment cs) : cs ≠ [] := by
  cases h <;> exact List.cons_ne_nil _ _

/-! ## Roles -/

/-- The text has the role, before the text behind it. -/
def Piece.Role.Fits (text behind : List Char) : Role → Prop
  | blank => ∃ c, text = [c] ∧ isSpace c = true
  | lineComment =>
    ∃ content, text = '/' :: '/' :: content ∧ '\n' ∉ content ∧
      (behind = [] ∨ behind.head? = some '\n')
  | blockComment =>
    ∃ rest, text = '/' :: '*' :: rest ∧
      (Comment rest ∨ behind = [] ∧ ∀ cs, Comment cs → ¬ cs <+: rest)
  | lone => ∃ c, text = [c] ∧ (c = '|' ∨ c = '&') ∧ behind.head? ≠ some c
  | word kind literal => Word text kind literal ∧ Longest text behind
  | fault .unexpectedCharacter =>
    ∃ c, text = [c] ∧ isSpace c = false ∧ ∀ cs, ¬ IsWord (c :: cs)
  | fault .invalidNumber =>
    IsDigits text ∧ Longest text behind ∧ ∀ n : Int64, n.toInt ≠ decimal text
  | fault .unterminatedString => ∃ content, text = '"' :: content ∧ '"' ∉ content ∧ behind = []

/-! ## The shapes of words -/

/-- Every word is a name, a number, a string or a symbol. -/
theorem IsWord.shape {text : List Char} (h : IsWord text) :
    (∃ c cs, text = c :: cs ∧ isNameStart c = true ∧ ∀ d ∈ cs, isNamePart d = true) ∨
      IsDigits text ∨
      (∃ whole fraction, text = whole ++ '.' :: fraction ∧ IsDigits whole ∧ IsDigits fraction) ∨
      (∃ content, text = '"' :: content ++ ['"'] ∧ '"' ∉ content) ∨
      ∃ kind, (String.ofList text, kind) ∈ Kind.symbols := by
  rcases h with h | ⟨kind, literal, h⟩
  · exact .inr (.inl h)
  cases h with
  | keyword h =>
    have hall : ∀ entry ∈ Kind.keywords, ∃ c cs, entry.1.toList = c :: cs ∧
        isNameStart c = true ∧ ∀ d ∈ cs, isNamePart d = true := by
      simp only [Kind.keywords, List.forall_mem_cons]
      refine ⟨?_, ?_, ?_, ?_, ?_, ?_, ?_, ?_, ?_, ?_, ?_, ?_, ?_, ?_, List.forall_mem_nil _⟩ <;>
        exact ⟨_, _, rfl, by decide, List.all_eq_true.1 (by decide)⟩
    obtain ⟨c, cs, htext, hc, hcs⟩ := hall _ h
    rw [String.toList_ofList] at htext
    exact .inl ⟨c, cs, htext, hc, hcs⟩
  | name hc hcs => exact .inl ⟨_, _, rfl, hc, hcs⟩
  | int hdigits => exact .inr (.inl hdigits)
  | float hwhole hfraction => exact .inr (.inr (.inl ⟨_, _, rfl, hwhole, hfraction⟩))
  | string hcontent => exact .inr (.inr (.inr (.inl ⟨_, rfl, hcontent⟩)))
  | symbol h => exact .inr (.inr (.inr (.inr ⟨_, h⟩)))

end Scripting
