import Scripting.Diagnostic.Basic

/-!
# Cutting a text into pieces

* `Piece` : a run of characters with its role: layout, a word, or a fault;
* `Piece.read` : the piece at the front of a text and the text behind it (`read_text`,
  `read_ne_nil`);
* `pieces` : all pieces of a text, which put together are that text again (`flatMap_text_pieces`).
-/

namespace Scripting

set_option autoImplicit false

/-- What a piece of a text is. Comments may be nested, and one that is not closed runs to the end of
the text; a lone bar or ampersand stands for nothing. -/
inductive Piece.Role
  | blank
  | lineComment
  | blockComment
  | lone
  | word (kind : Kind) (literal : Option Literal)
  | fault (fault : LexFault)

/-- A run of characters with its role. -/
structure Piece where
  role : Piece.Role
  text : List Char

namespace Piece

/-! ## Classes of characters -/

/-- The characters that separate words. -/
def isSpace (c : Char) : Bool := c = ' ' || c = '\r' || c = '\t' || c = '\n'

/-- The characters that begin a name: ASCII letters and the underscore. -/
def isNameStart (c : Char) : Bool := c.isAlpha || c = '_'

/-- The characters that continue a name. -/
def isNamePart (c : Char) : Bool := c.isAlphanum || c = '_'

/-- The kind of a symbol made of one character. -/
def symbol? : Char → Option Kind
  | '(' => some .leftParen
  | ')' => some .rightParen
  | '{' => some .leftBrace
  | '}' => some .rightBrace
  | ',' => some .comma
  | '.' => some .dot
  | ';' => some .semicolon
  | '+' => some .plus
  | '-' => some .minus
  | '*' => some .star
  | '/' => some .slash
  | '!' => some .bang
  | '=' => some .assign
  | '<' => some .less
  | '>' => some .greater
  | _ => none

/-- The kind of a symbol made of two characters. -/
def joined? : Char → Char → Option Kind
  | '+', '=' => some .plusEqual
  | '-', '=' => some .minusEqual
  | '*', '=' => some .starEqual
  | '/', '=' => some .slashEqual
  | '!', '=' => some .bangEqual
  | '=', '=' => some .equalEqual
  | '<', '=' => some .lessEqual
  | '>', '=' => some .greaterEqual
  | '|', '|' => some .or
  | '&', '&' => some .and
  | _, _ => none

/-! ## Numbers -/

/-- The number that a run of decimal digits writes. -/
def digitsValue (digits : List Char) : Nat :=
  digits.foldl (fun n c => 10 * n + (c.toNat - '0'.toNat)) 0

/-- The greatest integer that can be written down, one less than the 63rd power of two. -/
def maxInt : Nat := 9223372036854775807

/-- The role of a run of digits. -/
def intRole (digits : List Char) : Role :=
  if digitsValue digits ≤ maxInt then .word .int (some (.int (Int64.ofNat (digitsValue digits))))
  else .fault .invalidNumber

/-- The role of two runs of digits with a dot between them: the binary64 number nearest to what they
write. -/
def floatRole (whole fraction : List Char) : Role :=
  let value := Float.ofScientific (digitsValue (whole ++ fraction)) true fraction.length
  .word .float (some (.float value.toBits))

/-! ## Reading one piece -/

/-- The rest of a block comment that is open inside `depth` others, and what follows it. -/
def blockComment : (depth : Nat) → List Char → List Char × List Char
  | _, [] => ([], [])
  | depth, '/' :: '*' :: cs =>
    let r := blockComment (depth + 1) cs
    ('/' :: '*' :: r.1, r.2)
  | 0, '*' :: '/' :: cs => (['*', '/'], cs)
  | depth + 1, '*' :: '/' :: cs =>
    let r := blockComment depth cs
    ('*' :: '/' :: r.1, r.2)
  | depth, c :: cs =>
    let r := blockComment depth cs
    (c :: r.1, r.2)

/-- A name or keyword that begins with `c`. -/
def readName (c : Char) (cs : List Char) : Piece × List Char :=
  let text := c :: cs.takeWhile isNamePart
  (⟨.word (.ofWord (String.ofList text)) none, text⟩, cs.dropWhile isNamePart)

/-- A number that begins with the digit `c`. A dot belongs to it only if a digit follows. -/
def readNumber (c : Char) (cs : List Char) : Piece × List Char :=
  let whole := c :: cs.takeWhile Char.isDigit
  match cs.dropWhile Char.isDigit with
  | '.' :: d :: rest =>
    if d.isDigit then
      let fraction := (d :: rest).takeWhile Char.isDigit
      (⟨floatRole whole fraction, whole ++ '.' :: fraction⟩, (d :: rest).dropWhile Char.isDigit)
    else (⟨intRole whole, whole⟩, '.' :: d :: rest)
  | rest => (⟨intRole whole, whole⟩, rest)

/-- A string, behind its opening quote. It has no escapes and may run over several lines. -/
def readString (cs : List Char) : Piece × List Char :=
  let content := cs.takeWhile (· ≠ '"')
  match cs.dropWhile (· ≠ '"') with
  | [] => (⟨.fault .unterminatedString, '"' :: content⟩, [])
  | quote :: rest =>
    (⟨.word .string (some (.string (String.ofList content))), '"' :: content ++ [quote]⟩, rest)

/-- A symbol of one character, or a character that belongs to no word. -/
def readSingle (c : Char) (cs : List Char) : Piece × List Char :=
  match symbol? c with
  | some kind => (⟨.word kind none, [c]⟩, cs)
  | none =>
    if c = '|' ∨ c = '&' then (⟨.lone, [c]⟩, cs)
    else (⟨.fault .unexpectedCharacter, [c]⟩, cs)

/-- A symbol of two characters where there is one, else of one. -/
def readSymbol (c : Char) : List Char → Piece × List Char
  | [] => readSingle c []
  | d :: cs =>
    match joined? c d with
    | some kind => (⟨.word kind none, [c, d]⟩, cs)
    | none => readSingle c (d :: cs)

/-- A comment, or a symbol that begins with a slash. -/
def readSlash : List Char → Piece × List Char
  | '/' :: cs =>
    (⟨.lineComment, '/' :: '/' :: cs.takeWhile (· ≠ '\n')⟩, cs.dropWhile (· ≠ '\n'))
  | '*' :: cs =>
    let r := blockComment 0 cs
    (⟨.blockComment, '/' :: '*' :: r.1⟩, r.2)
  | cs => readSymbol '/' cs

/-- The piece at the front of the text `c :: cs`, and the text behind it. -/
def read (c : Char) (cs : List Char) : Piece × List Char :=
  if isSpace c then (⟨.blank, [c]⟩, cs)
  else if isNameStart c then readName c cs
  else if c.isDigit then readNumber c cs
  else if c = '"' then readString cs
  else if c = '/' then readSlash cs
  else readSymbol c cs

/-! ## Nothing is lost -/

theorem blockComment_append (depth : Nat) (cs : List Char) :
    (blockComment depth cs).1 ++ (blockComment depth cs).2 = cs := by
  fun_induction blockComment depth cs with
  | case1 => rfl
  | case2 _ _ _ ih => simpa using ih
  | case3 => rfl
  | case4 _ _ _ ih => simpa using ih
  | case5 _ _ _ _ _ _ _ ih => simpa using ih

theorem readName_text (c : Char) (cs : List Char) :
    (readName c cs).1.text ++ (readName c cs).2 = c :: cs := by
  simp [readName]

theorem readNumber_text (c : Char) (cs : List Char) :
    (readNumber c cs).1.text ++ (readNumber c cs).2 = c :: cs := by
  have h := List.takeWhile_append_dropWhile (p := Char.isDigit) (l := cs)
  unfold readNumber
  split
  · rename_i d rest e
    rw [e] at h
    split
    · simp only [List.append_assoc, List.cons_append, List.takeWhile_append_dropWhile, h]
    · simp only [List.cons_append, h]
  · simp only [List.cons_append, h]

theorem readString_text (cs : List Char) :
    (readString cs).1.text ++ (readString cs).2 = '"' :: cs := by
  have h := List.takeWhile_append_dropWhile (p := (· ≠ '"')) (l := cs)
  unfold readString
  split
  · rename_i e
    rw [e] at h
    simpa using h
  · rename_i quote rest e
    rw [e] at h
    simpa using h

theorem readSingle_text (c : Char) (cs : List Char) :
    (readSingle c cs).1.text ++ (readSingle c cs).2 = c :: cs := by
  unfold readSingle
  split
  · rfl
  · split <;> rfl

theorem readSymbol_text (c : Char) (cs : List Char) :
    (readSymbol c cs).1.text ++ (readSymbol c cs).2 = c :: cs := by
  unfold readSymbol
  split
  · exact readSingle_text c []
  · split
    · rfl
    · exact readSingle_text c _

theorem readSlash_text (cs : List Char) :
    (readSlash cs).1.text ++ (readSlash cs).2 = '/' :: cs := by
  unfold readSlash
  split
  · simp
  · simp [blockComment_append]
  · exact readSymbol_text '/' _

/-- A piece and the text behind it are the whole text. -/
theorem read_text (c : Char) (cs : List Char) :
    (read c cs).1.text ++ (read c cs).2 = c :: cs := by
  unfold read
  split
  · rfl
  · split
    · exact readName_text c cs
    · split
      · exact readNumber_text c cs
      · split
        · rename_i h
          subst h
          exact readString_text cs
        · split
          · rename_i h
            subst h
            exact readSlash_text cs
          · exact readSymbol_text c cs

/-! ## Every piece has a character -/

theorem readSingle_ne_nil (c : Char) (cs : List Char) : (readSingle c cs).1.text ≠ [] := by
  unfold readSingle
  split
  · simp
  · split <;> simp

theorem readSymbol_ne_nil (c : Char) (cs : List Char) : (readSymbol c cs).1.text ≠ [] := by
  unfold readSymbol
  split
  · exact readSingle_ne_nil c []
  · split
    · simp
    · exact readSingle_ne_nil c _

/-- A piece holds at least one character. -/
theorem read_ne_nil (c : Char) (cs : List Char) : (read c cs).1.text ≠ [] := by
  unfold read
  split
  · simp
  · split
    · simp [readName]
    · split
      · unfold readNumber
        split
        · split <;> simp
        · simp
      · split
        · unfold readString
          split <;> simp
        · split
          · unfold readSlash
            split
            · simp
            · simp
            · exact readSymbol_ne_nil _ _
          · exact readSymbol_ne_nil c cs

theorem length_read_lt (c : Char) (cs : List Char) :
    (read c cs).2.length < (c :: cs).length := by
  have h := congrArg List.length (read_text c cs)
  have := List.length_pos_iff.2 (read_ne_nil c cs)
  simp only [List.length_append] at h
  omega

end Piece

/-- All pieces of a text, in order. -/
def pieces : List Char → List Piece
  | [] => []
  | c :: cs =>
    let r := Piece.read c cs
    r.1 :: pieces r.2
termination_by cs => cs.length
decreasing_by exact Piece.length_read_lt c cs

/-- The pieces of a text, put together, are the text. -/
theorem flatMap_text_pieces (cs : List Char) : (pieces cs).flatMap Piece.text = cs := by
  fun_induction pieces cs with
  | case1 => rfl
  | case2 c cs r ih => simp only [List.flatMap_cons, ih]; exact Piece.read_text c cs

end Scripting
