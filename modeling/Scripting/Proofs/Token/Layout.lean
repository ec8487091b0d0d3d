import Scripting.Proofs.Token.Cut

/-!
# Tokens and layout

* `Layout` : white space and comments, all of which come to their end (`Layout.pieces_append`);
* `IsSeparator`, `Separated` : what is put between lexemes;
* `spread`, `placed` : the text of lexemes and separators, and the tokens where their lexemes are
  put;
* `scan_spread` : the tokens of a text, spread in any way, are read again.
-/

namespace Scripting

set_option autoImplicit false

open Piece (isSpace)

/-! ## Layout -/

/-- White space, comments up to the end of a line, and block comments, one behind the other. -/
inductive Layout : List Char → Prop
  | nil : Layout []
  | blank {c : Char} {cs : List Char} (hc : isSpace c = true) (hcs : Layout cs) : Layout (c :: cs)
  | lineComment {content cs : List Char} (hcontent : '\n' ∉ content) (hcs : Layout cs) :
      Layout ('/' :: '/' :: content ++ '\n' :: cs)
  | blockComment {comment cs : List Char} (hcomment : Comment comment) (hcs : Layout cs) :
      Layout ('/' :: '*' :: comment ++ cs)

/-- Layout that begins with white space. -/
def IsSeparator (sep : String) : Prop :=
  ∃ c cs, sep.toList = c :: cs ∧ isSpace c = true ∧ Layout cs

/-- The piece is white space or a comment. -/
def Piece.IsLayout (piece : Piece) : Prop :=
  piece.role = .blank ∨ piece.role = .lineComment ∨ piece.role = .blockComment

/-- What is read of closed comments that stand in an open one. -/
theorem Comment.read_inside {cs : List Char} (h : Comment cs) (depth : Nat) (ds : List Char) :
    Piece.blockComment (depth + 1) (cs ++ ds) =
      (cs ++ (Piece.blockComment depth ds).1, (Piece.blockComment depth ds).2) := by
  induction h generalizing depth ds with
  | close => rfl
  | @inner cs es _ _ hinner hrest =>
    show Piece.blockComment (depth + 1) ('/' :: '*' :: (cs ++ es ++ ds)) = _
    rw [Piece.blockComment, List.append_assoc, hinner, hrest]
    simp only [List.cons_append, List.append_assoc]
  | @char c cs hmark hcs ih =>
    obtain ⟨d, es, rfl⟩ := List.exists_cons_of_ne_nil hcs.ne_nil
    have hmark' : ¬ Piece.isMark c (d :: es ++ ds) := hmark
    rw [List.cons_append, Piece.blockComment_cons hmark', ih]
    rfl

/-- A closed comment is read up to the mark that closes it. -/
theorem Comment.read {cs : List Char} (h : Comment cs) (ds : List Char) :
    Piece.blockComment 0 (cs ++ ds) = (cs, ds) := by
  induction h generalizing ds with
  | close => rfl
  | @inner cs es hcs _ _ hrest =>
    show Piece.blockComment 0 ('/' :: '*' :: (cs ++ es ++ ds)) = _
    rw [Piece.blockComment, List.append_assoc, hcs.read_inside, hrest]
    rfl
  | @char c cs hmark hcs ih =>
    obtain ⟨d, es, rfl⟩ := List.exists_cons_of_ne_nil hcs.ne_nil
    have hmark' : ¬ Piece.isMark c (d :: es ++ ds) := hmark
    rw [List.cons_append, Piece.blockComment_cons hmark', ih]

/-- A blank character is a piece of its own. -/
theorem pieces_blank {c : Char} (hc : isSpace c = true) (cs : List Char) :
    pieces (c :: cs) = ⟨.blank, [c]⟩ :: pieces cs := by
  rw [pieces, Piece.read, if_pos hc]

theorem read_slash (cs : List Char) : Piece.read '/' cs = Piece.readSlash cs := by
  unfold Piece.read
  rw [if_neg (by decide), if_neg (by decide), if_neg (by decide), if_neg (by decide), if_pos rfl]

namespace Layout

/-- Layout is cut into pieces of its own, whatever stands behind it. -/
theorem pieces_append {cs : List Char} (h : Layout cs) (ds : List Char) :
    ∃ ps, (∀ piece ∈ ps, piece.IsLayout) ∧ ps.flatMap Piece.text = cs ∧
      pieces (cs ++ ds) = ps ++ pieces ds := by
  induction h with
  | nil => exact ⟨[], List.forall_mem_nil _, rfl, rfl⟩
  | @blank c cs hc _ ih =>
    obtain ⟨ps, hps, htext, hpieces⟩ := ih
    refine ⟨⟨.blank, [c]⟩ :: ps, List.forall_mem_cons.2 ⟨.inl rfl, hps⟩, ?_, ?_⟩
    · rw [List.flatMap_cons, htext]
      rfl
    · rw [List.cons_append, pieces_blank hc, hpieces]
      rfl
  | @lineComment content cs hcontent _ ih =>
    obtain ⟨ps, hps, htext, hpieces⟩ := ih
    have hall : ∀ c ∈ content, decide (c ≠ '\n') = true :=
      fun c hc => decide_eq_true fun heq => hcontent (heq ▸ hc)
    have hread : Piece.read '/' ('/' :: (content ++ '\n' :: (cs ++ ds))) =
        (⟨.lineComment, '/' :: '/' :: content⟩, '\n' :: (cs ++ ds)) := by
      rw [read_slash, Piece.readSlash, Piece.takeWhile_append_cons (by decide),
        Piece.dropWhile_append_cons (by decide), List.takeWhile_eq_self_iff.2 hall,
        List.dropWhile_eq_nil_iff.2 hall, List.nil_append]
    refine ⟨⟨.lineComment, '/' :: '/' :: content⟩ :: ⟨.blank, ['\n']⟩ :: ps, ?_, ?_, ?_⟩
    · exact List.forall_mem_cons.2 ⟨.inr (.inl rfl), List.forall_mem_cons.2 ⟨.inl rfl, hps⟩⟩
    · rw [List.flatMap_cons, List.flatMap_cons, htext]
      rfl
    · simp only [List.cons_append, List.append_assoc]
      rw [pieces, hread, pieces_blank rfl, hpieces]
  | @blockComment comment cs hcomment _ ih =>
    obtain ⟨ps, hps, htext, hpieces⟩ := ih
    have hread : Piece.read '/' ('*' :: (comment ++ (cs ++ ds))) =
        (⟨.blockComment, '/' :: '*' :: comment⟩, cs ++ ds) := by
      rw [read_slash, Piece.readSlash, hcomment.read]
    refine ⟨⟨.blockComment, '/' :: '*' :: comment⟩ :: ps, ?_, ?_, ?_⟩
    · exact List.forall_mem_cons.2 ⟨.inr (.inr rfl), hps⟩
    · rw [List.flatMap_cons, htext]
    · simp only [List.cons_append, List.append_assoc]
      rw [pieces, hread, hpieces]

end Layout

/-- Layout gives no tokens and no faults. -/
theorem Scan.ofPieces_layout {ps : List Piece} (h : ∀ piece ∈ ps, piece.IsLayout) (p : Position)
    (qs : List Piece) : ofPieces p (ps ++ qs) = ofPieces (p.after (ps.flatMap Piece.text)) qs := by
  induction ps generalizing p with
  | nil => rfl
  | cons piece ps ih =>
    obtain ⟨hpiece, hps⟩ := List.forall_mem_cons.1 h
    rw [List.cons_append, ofPieces, ih hps, List.flatMap_cons, Position.after_append]
    unfold Piece.token? Piece.diagnostic?
    rcases hpiece with hrole | hrole | hrole <;> rw [hrole] <;> rfl

/-! ## Lexemes -/

/-- The lexeme of a token is a piece of its own. -/
theorem pieces_lexeme {source : String} {t : Token} (h : t ∈ beforeEnd (scan source).tokens) :
    pieces t.lexeme.toList = [⟨.word t.kind t.literal, t.lexeme.toList⟩] := by
  rw [beforeEnd_tokens_scan] at h
  obtain ⟨as, bs, hsplit⟩ := List.append_of_mem h
  obtain ⟨qs, piece, rs, hpieces, -, -, htoken⟩ := Scan.words_split hsplit
  have hbehind := pieces_behind hpieces
  have hword := (Piece.role_of_token? htoken).1
  have hnothing : Severed (rs.flatMap Piece.text) [] := nofun
  have hfront : pieces ([piece].flatMap Piece.text ++ rs.flatMap Piece.text) = [piece] ++ rs := by
    simpa using hbehind
  have halone : pieces piece.text = [piece] := by
    simpa [pieces] using pieces_severed hfront rfl hword hnothing
  obtain ⟨kind, literal, hrole⟩ := hword
  unfold Piece.token? at htoken
  rw [hrole] at htoken
  obtain rfl := Option.some.inj htoken
  rw [String.toList_ofList, halone, ← hrole]

/-- Behind a lexeme, a separator is cut into pieces of its own; so is nothing at the end. -/
theorem pieces_lexeme_append {source : String} {t : Token}
    (ht : t ∈ beforeEnd (scan source).tokens) {sep rest : String}
    (hsep : IsSeparator sep ∨ sep = "" ∧ rest = "") :
    ∃ ps, (∀ piece ∈ ps, piece.IsLayout) ∧ ps.flatMap Piece.text = sep.toList ∧
      pieces (t.lexeme ++ sep ++ rest).toList =
        ⟨.word t.kind t.literal, t.lexeme.toList⟩ :: (ps ++ pieces rest.toList) := by
  have hlexeme := pieces_lexeme ht
  rcases hsep with ⟨w, cs, hsep, hw, hcs⟩ | ⟨rfl, rfl⟩
  · obtain ⟨ps, hps, htext, hpieces⟩ := hcs.pieces_append rest.toList
    refine ⟨⟨.blank, [w]⟩ :: ps, List.forall_mem_cons.2 ⟨.inl rfl, hps⟩, ?_, ?_⟩
    · rw [List.flatMap_cons, htext, hsep]
      rfl
    · have hends : ∀ piece ∈ pieces t.lexeme.toList, piece.endsAt w := by
        rw [hlexeme]
        intro piece hpiece
        rw [List.mem_singleton.1 hpiece]
        trivial
      rw [String.toList_append, String.toList_append, hsep, List.append_assoc, List.cons_append,
        pieces_append hw hends, hpieces, hlexeme]
      rfl
  · refine ⟨[], List.forall_mem_nil _, rfl, ?_⟩
    rw [String.append_empty, String.append_empty, hlexeme, String.toList_empty, pieces]
    rfl

/-! ## Spreading lexemes -/

/-- A separator stands behind each lexeme. Behind the last one there may be nothing. -/
def Separated : List (Token × String) → Prop
  | [] => True
  | (_, sep) :: rest => (IsSeparator sep ∨ sep = "" ∧ rest = []) ∧ Separated rest

/-- The lexemes of tokens with what is put behind each of them. -/
def spread : List (Token × String) → String
  | [] => ""
  | (t, sep) :: rest => t.lexeme ++ sep ++ spread rest

/-- The token whose lexeme is put behind the text `before`. -/
def Token.put (before : String) (t : Token) : Token :=
  { t with
    line := 1 + (before ++ t.lexeme).toList.count '\n'
    span := ⟨before.utf8ByteSize, before.utf8ByteSize + t.lexeme.utf8ByteSize⟩ }

/-- The tokens whose lexemes are spread behind the text `before`, and one for the end. -/
def placed (before : String) : List (Token × String) → List Token
  | [] => [.ending (1 + before.toList.count '\n') before.utf8ByteSize]
  | (t, sep) :: rest => t.put before :: placed (before ++ t.lexeme ++ sep) rest

/-! ## Reading them again -/

/-- The place behind a text. -/
def positionBehind (before : String) : Position :=
  ⟨before.utf8ByteSize, 1 + before.toList.count '\n'⟩

theorem positionBehind_append (before text : String) :
    positionBehind (before ++ text) = (positionBehind before).after text.toList := by
  have hoffset := Position.offset_after (positionBehind before) text.toList
  have hline := Position.line_after (positionBehind before) text.toList
  rw [← utf8ByteSize_ofList, String.ofList_toList] at hoffset
  unfold positionBehind at hoffset hline ⊢
  rw [String.utf8ByteSize_append, String.toList_append, List.count_append, ← Nat.add_assoc]
  exact congrArg₂ Position.mk hoffset.symm hline.symm

/-- The word of a token, put behind a text, gives the token there. -/
theorem token?_put (before : String) (t : Token) :
    (⟨.word t.kind t.literal, t.lexeme.toList⟩ : Piece).token? (positionBehind before)
      (positionBehind (before ++ t.lexeme)) = some (t.put before) := by
  unfold Piece.token? positionBehind Token.put
  rw [String.ofList_toList, String.utf8ByteSize_append]

/-- The word of a token, put behind a text, is read as the token there. -/
theorem ofPieces_put (before : String) (t : Token) (ps : List Piece) :
    Scan.ofPieces (positionBehind before) (⟨.word t.kind t.literal, t.lexeme.toList⟩ :: ps) =
      ⟨t.put before :: (Scan.ofPieces (positionBehind (before ++ t.lexeme)) ps).tokens,
        (Scan.ofPieces (positionBehind (before ++ t.lexeme)) ps).diagnostics⟩ := by
  rw [Scan.ofPieces, ← positionBehind_append, token?_put]
  rfl

theorem ofPieces_spread {source : String} {laid : List (Token × String)} (before : String)
    (htokens : ∀ x ∈ laid, x.1 ∈ beforeEnd (scan source).tokens) (hlaid : Separated laid) :
    Scan.ofPieces (positionBehind before) (pieces (spread laid).toList) =
      ⟨placed before laid, []⟩ := by
  induction laid generalizing before with
  | nil =>
    rw [spread, String.toList_empty, pieces]
    rfl
  | cons x rest ih =>
    obtain ⟨t, sep⟩ := x
    obtain ⟨ht, hrest⟩ := List.forall_mem_cons.1 htokens
    obtain ⟨hsep, hlaid⟩ := hlaid
    have hends : IsSeparator sep ∨ sep = "" ∧ spread rest = "" := by
      apply hsep.imp_right
      rintro ⟨hempty, rfl⟩
      exact ⟨hempty, rfl⟩
    obtain ⟨ps, hps, htext, hpieces⟩ := pieces_lexeme_append ht hends
    rw [spread, hpieces, ofPieces_put, Scan.ofPieces_layout hps, htext, ← positionBehind_append,
      ih _ hrest hlaid]
    rfl

/-- Layout does not matter, and tokens are read again from their lexemes: however the tokens of a
text are spread, there are no faults, and the tokens are the same with the places where they have
been put. The text that they are from may have faults. -/
theorem scan_spread (source : String) (laid : List (Token × String))
    (htokens : laid.map Prod.fst = beforeEnd (scan source).tokens) (hlaid : Separated laid) :
    scan (spread laid) = ⟨placed "" laid, []⟩ := by
  have hmem : ∀ x ∈ laid, x.1 ∈ beforeEnd (scan source).tokens := by
    intro x hx
    rw [← htokens]
    exact List.mem_map_of_mem hx
  exact ofPieces_spread "" hmem hlaid

/-- A comment in a comment, a quote in a comment, and the mark of a comment in a string. -/
theorem scan_spread_marks :
    let laid : List (Token × String) :=
      [(⟨.identifier, "x", none, 1, ⟨0, 1⟩⟩, " /*/**/*/"),
        (⟨.plusEqual, "+=", none, 1, ⟨1, 3⟩⟩, "\n//\"\n"),
        (⟨.string, "\"//\"", some (.string "//"), 1, ⟨3, 7⟩⟩, "\t"),
        (⟨.semicolon, ";", none, 1, ⟨7, 8⟩⟩, "")]
    laid.map Prod.fst = beforeEnd (scan "x+=\"//\";").tokens ∧
      scan (spread laid) = ⟨placed "" laid, []⟩ := by
  intro laid
  have htokens : laid.map Prod.fst = beforeEnd (scan "x+=\"//\";").tokens := by decide +kernel
  have hnested : Comment "/**/*/".toList := .inner .close .close
  have hcomments : IsSeparator " /*/**/*/" := ⟨_, _, rfl, rfl, .blockComment hnested .nil⟩
  have hline : Layout "//\"\n".toList := @Layout.lineComment ['"'] [] (by decide) .nil
  have hquote : IsSeparator "\n//\"\n" := ⟨_, _, rfl, rfl, hline⟩
  have htab : IsSeparator "\t" := ⟨_, _, rfl, rfl, .nil⟩
  have hlaid : Separated laid :=
    ⟨.inl hcomments, .inl hquote, .inl htab, .inr ⟨rfl, rfl⟩, trivial⟩
  exact ⟨htokens, scan_spread _ laid htokens hlaid⟩

end Scripting
