import Scripting.Proofs.Places.Formed
import Scripting.Proofs.Quotes.Lines
import Scripting.Proofs.Token.Tiles

/-!
# What diagnostics point at

* `Token.part` : a token of a text is a part of the text, with its span, and its line is the one on
  which the part ends;
* `Token.Named` : what a diagnostic of a phase calls a token;
* `Diagnostic.PointsInto source` : the span, the line and the location of a diagnostic are those of
  a part of the text, and of a token of it unless it tells a fault of a word;
* `Diagnostic.Quotes source number` : the text for a reader quotes line `number` of the source, in
  which the token stands;
* `Diagnostic.PointsInto.quotes` : a diagnostic that points into a text quotes the line that it
  points at.
-/

namespace Scripting

set_option autoImplicit false

/-! ## Tokens of a text -/

section

variable {source : String} {t : Token}

/-- A word of a text stands in it. -/
theorem Scan.stands_of_mem_words (ht : t ∈ words .origin (pieces source.toList)) :
    t.Stands source := by
  rw [words_eq] at ht
  obtain ⟨x, hx, ht⟩ := List.mem_filterMap.1 ht
  exact token_stands hx ht

theorem mem_tokens_scan : t ∈ (scan source).tokens ↔
    t ∈ Scan.words .origin (pieces source.toList) ∨
      t = .ending (1 + source.toList.count '\n') source.utf8ByteSize := by
  rw [tokens_scan, List.mem_append, List.mem_singleton]

/-- A token of a text is a part of it: a word, or nothing at the end. -/
theorem Token.part (ht : t ∈ (scan source).tokens) : ∃ before behind : String,
    source = before ++ t.lexeme ++ behind ∧
      t.span = ⟨before.utf8ByteSize, before.utf8ByteSize + t.lexeme.utf8ByteSize⟩ ∧
      t.line = 1 + (before ++ t.lexeme).toList.count '\n' ∧
      (t.kind = .endOfInput → t.lexeme = "" ∧ behind = "") ∧
      (t.kind ≠ .endOfInput → Word t.lexeme.toList t.kind t.literal) := by
  rcases mem_tokens_scan.1 ht with ht | rfl
  · obtain ⟨before, behind, hsource, hspan, hline, hword, -⟩ := Scan.stands_of_mem_words ht
    have hkind := Scan.kind_of_mem_words (fun _ => isInside_pieces) ht
    exact ⟨before, behind, hsource, hspan, hline, fun h => absurd h hkind,
      fun _ => (hword _ _).2 ⟨rfl, rfl⟩⟩
  · exact ⟨source, "", by simp [ending], rfl, by simp [ending], fun _ => ⟨rfl, rfl⟩,
      fun h => absurd rfl h⟩

end

/-- A word that combines and assigns is the operator, of one character, and an equals sign. -/
theorem Word.of_compound {text : List Char} {kind : Kind} {literal : Option Literal}
    (h : Word text kind literal) {op : CompoundOp} (hop : CompoundOp.ofKind? kind = some op) :
    ∃ c, text = [c, '='] ∧ op.lexeme = String.ofList [c] := by
  cases h with
  | keyword h =>
    have hall : ∀ entry ∈ Kind.keywords, (CompoundOp.ofKind? entry.2).isNone = true := by decide
    have hnone := hall _ h
    rw [hop] at hnone
    cases hnone
  | name | int | float | string => cases hop
  | symbol h =>
    have hall : ∀ entry ∈ Kind.symbols, ∀ op ∈ CompoundOp.ofKind? entry.2,
        entry.1.toList = op.lexeme.toList ++ ['='] ∧ op.lexeme.toList.length = 1 := by decide
    obtain ⟨htext, hlength⟩ := hall _ h op hop
    obtain ⟨c, hc⟩ := List.length_eq_one_iff.1 hlength
    rw [String.toList_ofList, hc] at htext
    exact ⟨c, htext, by rw [← hc, String.ofList_toList]⟩

theorem CompoundOp.kind_ne {kind : Kind} {op : CompoundOp} (h : ofKind? kind = some op) :
    op.kind ≠ .endOfInput := by
  cases kind <;> cases h <;> decide

/-! ## Where diagnostics point -/

/-- What a diagnostic of a phase calls a token with this text: the end, if it stands for the end of
the text; or its text; but a program that runs calls an operator that also assigns by its first
character. -/
inductive Token.Named (phase : Phase) (t : Token) (text : String) : Location → Prop
  | ending (hkind : t.kind = .endOfInput) (htext : text = "") : Named phase t text .ending
  | lexeme (hkind : t.kind ≠ .endOfInput)
      (hplain : phase = .runtime → CompoundOp.ofKind? t.kind = none) :
      Named phase t text (.lexeme text)
  | operator {op : CompoundOp} {c : Char} (hphase : phase = .runtime)
      (hop : CompoundOp.ofKind? t.kind = some op) (htext : text = String.ofList [c, '=']) :
      Named phase t text (.lexeme (String.ofList [c]))

/-- The diagnostic points into the text. Its span is that of a part of the text. If it tells a fault
of a word, it has no location, and its line is the one on which the part begins. Else the part is a
token that was read from the text, and the line is that of the token, on which the part ends; the
location calls the token what it is, and the token that stands for the end is at the end. -/
def Diagnostic.PointsInto (source : String) (d : Diagnostic) : Prop :=
  ∃ before text behind : String, source = before ++ text ++ behind ∧
    d.span = some ⟨before.utf8ByteSize, before.utf8ByteSize + text.utf8ByteSize⟩ ∧
    (d.phase = .lex ∧ d.location = none ∧ d.line = some (1 + before.toList.count '\n') ∨
      d.phase ≠ .lex ∧ ∃ t ∈ (scan source).tokens, d.span = some t.span ∧ d.line = some t.line ∧
        t.lexeme = text ∧ t.line = 1 + (before ++ text).toList.count '\n' ∧
        (t.kind = .endOfInput → behind = "") ∧
        ∃ location, d.location = some location ∧ t.Named d.phase text location)

variable {source : String}

/-- A span lies in the text that it points into. -/
theorem Diagnostic.PointsInto.stop_le {d : Diagnostic} (h : d.PointsInto source) {span : Span}
    (hspan : d.span = some span) : span.start ≤ span.stop ∧ span.stop ≤ source.utf8ByteSize := by
  obtain ⟨before, text, behind, rfl, hspan', -⟩ := h
  obtain rfl := Option.some.inj (hspan.symm.trans hspan')
  rw [String.utf8ByteSize_append, String.utf8ByteSize_append]
  exact ⟨Nat.le_add_right .., Nat.le_add_right ..⟩

/-! ### What reading and running report -/

/-- What is told of a part of the text points into it. -/
theorem Diagnostic.Stands.pointsInto {d : Diagnostic} (h : d.Stands source) :
    d.PointsInto source := by
  obtain ⟨before, text, behind, fault, hsource, rfl, -⟩ := h
  exact ⟨before, text, behind, hsource, rfl, .inl ⟨rfl, rfl, rfl⟩⟩

/-- What is reported at a token of the text points into it. -/
theorem Token.pointsInto {t : Token} (ht : t ∈ (scan source).tokens) {cause : Cause}
    (hlex : cause.phase ≠ .lex)
    (hplain : cause.phase = .runtime → CompoundOp.ofKind? t.kind = none) :
    (Diagnostic.atToken cause t).PointsInto source := by
  obtain ⟨before, behind, hsource, hspan, hline, hend, -⟩ := part ht
  refine ⟨before, t.lexeme, behind, hsource, congrArg some hspan, .inr ⟨hlex, t, ht, rfl, rfl, rfl,
    hline, fun hkind => (hend hkind).2, .ofToken t, rfl, ?_⟩⟩
  unfold Location.ofToken
  split
  · rename_i hkind
    exact .ending hkind (hend hkind).1
  · rename_i hkind
    exact .lexeme hkind hplain

/-- What is reported at a mark that stands for a word of the text points into it. -/
theorem Token.Marks.pointsInto {mark : Token}
    (h : mark.Marks (· ∈ Scan.words .origin (pieces source.toList))) (fault : RuntimeFault) :
    (Diagnostic.atToken (.runtime fault) mark).PointsInto source := by
  rcases h with ⟨hmem, hplain⟩ | ⟨t, op, hmem, hop, rfl⟩
  · exact Token.pointsInto (mem_tokens_scan.2 (.inl hmem)) nofun fun _ => hplain
  · have ht : t ∈ (scan source).tokens := mem_tokens_scan.2 (.inl hmem)
    have hkind := Scan.kind_of_mem_words (fun _ => isInside_pieces) hmem
    obtain ⟨before, behind, hsource, hspan, hline, -, hword⟩ := part ht
    obtain ⟨c, htext, hlexeme⟩ := (hword hkind).of_compound hop
    have hstand : (t.standIn op.kind op.lexeme).kind ≠ .endOfInput := CompoundOp.kind_ne hop
    refine ⟨before, t.lexeme, behind, hsource, congrArg some hspan, .inr ⟨nofun, t, ht, rfl, rfl,
      rfl, hline, fun h => absurd h hkind, .lexeme op.lexeme, ?_, ?_⟩⟩
    · exact congrArg some (if_neg hstand)
    · rw [hlexeme]
      exact .operator rfl hop (by rw [← htext, String.ofList_toList])

/-! ## Quotes -/

namespace Diagnostic

/-- What a reader is told before the line that is quoted. -/
def heading (d : Diagnostic) (scriptName : String) (number : Nat) : String :=
  let location := match d.location with
    | some location => " " ++ location.text
    | none => ""
  "error[" ++ d.phase.label ++ "]" ++ location ++ ": " ++ d.message ++ "\n"
    ++ "  --> " ++ scriptName ++ " : line " ++ toString number ++ "\n"

/-- What a reader is told behind the line that is quoted. -/
def footing (d : Diagnostic) : String :=
  String.join (d.notes.map fun note => "  note: " ++ note ++ "\n")

/-- The line as it is quoted: with its number, and without the blanks at its ends. -/
def quote (number : Nat) (line : List Char) : String :=
  "   |\n" ++ Text.alignRight 3 (toString number) ++ "|  "
    ++ String.ofList (Text.trimBlankChars line) ++ "\n   |\n"

/-- A reader is told the line of the number, and only if there is one. If the diagnostic is located
at a lexeme on one line, there is, and the lexeme stands in what is quoted. -/
structure Quotes (source : String) (d : Diagnostic) (number : Nat) : Prop where
  quoted : ∀ line, Source.IsLine source.toList number line → ∀ scriptName,
    d.render source scriptName = d.heading scriptName number ++ quote number line ++ d.footing
  bare : (∀ line, ¬Source.IsLine source.toList number line) → ∀ scriptName,
    d.render source scriptName = d.heading scriptName number ++ d.footing
  shown : ∀ lexeme, d.location = some (.lexeme lexeme) → '\n' ∉ lexeme.toList →
    ∃ line, Source.IsLine source.toList number line ∧
      lexeme.toList <:+: Text.trimBlankChars line

theorem render_eq {d : Diagnostic} {number : Nat} (hline : d.line = some number)
    (source scriptName : String) : d.render source scriptName =
      d.heading scriptName number ++ excerpt source number ++ d.footing := by
  have hshown : d.shownLine? source = some number := by
    rw [shownLine?, hline]
    rfl
  unfold render heading footing
  rw [hshown]
  cases d.location <;> simp only [String.append_assoc]

theorem excerpt_of_isLine {number : Nat} {line : List Char}
    (h : Source.IsLine source.toList number line) : excerpt source number = quote number line := by
  have hpos : 1 ≤ number := by
    obtain ⟨_, _, _, -, -, rfl, -⟩ := h
    exact Nat.le_add_right ..
  rw [excerpt, (Source.line?_eq_some_iff hpos).2 h]
  rfl

theorem excerpt_of_not_isLine {number : Nat} (hpos : 1 ≤ number)
    (h : ∀ line, ¬Source.IsLine source.toList number line) : excerpt source number = "" := by
  have hnone : Source.line? source.toList number = none := by
    rw [Option.eq_none_iff_forall_ne_some]
    exact fun line hline => h line ((Source.line?_eq_some_iff hpos).1 hline)
  rw [excerpt, hnone]

/-- A part of a text on one line stands in what is quoted of the line on which it ends. -/
theorem exists_isLine_of_word {before text behind : String}
    (hsource : source = before ++ text ++ behind) (solid : Text.Solid text.toList)
    (hfeed : '\n' ∉ text.toList) :
    ∃ line, Source.IsLine source.toList (1 + (before ++ text).toList.count '\n') line ∧
      text.toList <:+: Text.trimBlankChars line := by
  have hlast : ∀ c ∈ text.toList.getLast?, c ≠ '\r' := by
    rintro _ hc rfl
    exact absurd (solid.last _ hc) (by decide)
  obtain ⟨line, hline, hinfix⟩ := Source.exists_isLine before.toList behind.toList solid.ne_nil
    hfeed hlast
  refine ⟨line, ?_, Text.infix_trimBlankChars solid hinfix⟩
  simp only [hsource, String.toList_append, List.count_append,
    List.count_eq_zero_of_not_mem hfeed, Nat.add_zero]
  exact hline

/-- What a token on one line is called stands in what is quoted of its line. -/
theorem exists_isLine_of_named {t : Token} (ht : t ∈ (scan source).tokens) {phase : Phase}
    {before lexeme behind : String} (hsource : source = before ++ t.lexeme ++ behind)
    (named : t.Named phase t.lexeme (.lexeme lexeme)) (hfeed : '\n' ∉ lexeme.toList) :
    ∃ line, Source.IsLine source.toList (1 + (before ++ t.lexeme).toList.count '\n') line ∧
      lexeme.toList <:+: Text.trimBlankChars line := by
  obtain ⟨-, -, -, -, -, -, hword⟩ := Token.part ht
  have solid (hkind : t.kind ≠ .endOfInput) : Text.Solid t.lexeme.toList :=
    IsWord.solid (.inr ⟨_, _, hword hkind⟩)
  generalize htext : t.lexeme = text at *
  cases named with
  | lexeme hkind => exact exists_isLine_of_word hsource (solid hkind) hfeed
  | @operator op c _ hop htext =>
    have hkind : t.kind ≠ .endOfInput := by
      intro hkind
      rw [hkind] at hop
      cases hop
    rw [String.toList_ofList] at hfeed
    have hfeed' : '\n' ∉ text.toList := by
      rw [htext, String.toList_ofList]
      simpa using hfeed
    obtain ⟨line, hline, hinfix⟩ := exists_isLine_of_word hsource (solid hkind) hfeed'
    refine ⟨line, hline, List.IsInfix.trans ?_ hinfix⟩
    rw [htext, String.toList_ofList, String.toList_ofList]
    exact ⟨[], ['='], rfl⟩

/-- A diagnostic that points into a text quotes the line that it points at. -/
theorem PointsInto.quotes {d : Diagnostic} (h : d.PointsInto source) :
    ∃ number, d.line = some number ∧ d.Quotes source number := by
  obtain ⟨before, text, behind, hsource, -, hpoints⟩ := h
  obtain ⟨number, hpos, hline, hshown⟩ : ∃ number, 1 ≤ number ∧ d.line = some number ∧
      ∀ lexeme, d.location = some (.lexeme lexeme) → '\n' ∉ lexeme.toList →
        ∃ line, Source.IsLine source.toList number line ∧
          lexeme.toList <:+: Text.trimBlankChars line := by
    rcases hpoints with ⟨-, hlocation, hline⟩ | ⟨-, t, ht, -, hline, rfl, hnumber, -, location,
      hlocation, named⟩
    · refine ⟨_, Nat.le_add_right .., hline, fun lexeme hlexeme => ?_⟩
      rw [hlocation] at hlexeme
      cases hlexeme
    · rw [hnumber] at hline
      refine ⟨_, Nat.le_add_right .., hline, fun lexeme hlexeme hfeed => ?_⟩
      rw [hlocation] at hlexeme
      cases hlexeme
      exact exists_isLine_of_named ht hsource named hfeed
  refine ⟨number, hline, fun line hisLine scriptName => ?_, fun hnone scriptName => ?_, hshown⟩
  · rw [render_eq hline, excerpt_of_isLine hisLine]
  · rw [render_eq hline, excerpt_of_not_isLine hpos hnone, String.append_empty]

end Diagnostic

end Scripting
