import Scripting.Token.Piece

/-!
# The tokens of a text

* `Piece.token?`, `Piece.diagnostic?` : what a piece gives, put at its place;
* `scan` : the tokens and the faults of a text, the tokens closed by one that stands for the end;
* `tokens?` : the tokens of a text without faults.
-/

namespace Scripting

set_option autoImplicit false

namespace Piece

/-- The token of a piece that lies between two places. -/
def token? (piece : Piece) (start stop : Position) : Option Token :=
  match piece.role with
  | .word kind literal =>
    some ⟨kind, String.ofList piece.text, literal, stop.line, ⟨start.offset, stop.offset⟩⟩
  | _ => none

/-- The fault of a piece that lies between two places; its line is where the piece starts. -/
def diagnostic? (piece : Piece) (start stop : Position) : Option Diagnostic :=
  match piece.role with
  | .fault fault =>
    some
      { cause := .lex fault
        span := some ⟨start.offset, stop.offset⟩
        line := some start.line }
  | _ => none

end Piece

/-- The tokens of a text and its faults. -/
structure Scan where
  tokens : List Token
  diagnostics : List Diagnostic

namespace Scan

/-- The tokens and faults of pieces that follow each other from the place `p` on. -/
def ofPieces (p : Position) : List Piece → Scan
  | [] => ⟨[.ending p.line p.offset], []⟩
  | piece :: rest =>
    let q := p.after piece.text
    let behind := ofPieces q rest
    { tokens := (piece.token? p q).toList ++ behind.tokens
      diagnostics := (piece.diagnostic? p q).toList ++ behind.diagnostics }

end Scan

/-- The tokens and faults of a text. -/
def scan (source : String) : Scan := .ofPieces .origin (pieces source.toList)

/-- The tokens of a text, or its faults if it has any. -/
def tokens? (source : String) : Except (List Diagnostic) (List Token) :=
  let s := scan source
  if s.diagnostics.isEmpty then .ok s.tokens else .error s.diagnostics

end Scripting
