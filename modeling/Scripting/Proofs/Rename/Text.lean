import Scripting.Proofs.Rename.Basic
import Scripting.Proofs.Token.Behind
import Scripting.Proofs.Token.Tiles

/-!
# Texts with a name replaced in a range

* `Renaming.replace`, `Renaming.apply` : a piece of a text, and a text, with the name replaced where
  it stands in a range;
* `NamesBegin` : texts at whose beginnings names are, between which the end of a piece does not tell
  (`neutral_namesBegin`);
* `pieces_apply` : the pieces of the text with the name replaced are those of the text, each with
  the name replaced;
* `Renaming.Swaps` : so it is with its tokens (`words_apply`).
-/

namespace Scripting

set_option autoImplicit false

open Piece (isSpace isNameStart isNamePart)
open Scan (located ofText)

/-! ## Names in a text -/

/-- Whether the piece is a name, and no keyword. -/
def Piece.isName (piece : Piece) : Bool :=
  match piece.role with
  | .word .identifier _ => true
  | _ => false

/-- The byte is in the range. -/
def Span.Holds (range : Span) (b : Nat) : Prop := range.start ≤ b ∧ b < range.stop

instance (range : Span) (b : Nat) : Decidable (range.Holds b) :=
  inferInstanceAs (Decidable (_ ∧ _))

namespace Renaming

variable (r : Renaming) (range : Span)

/-- The piece is the old name and begins in the range. -/
def Hits (x : Position × Piece) : Prop :=
  x.2.isName = true ∧ x.2.text = r.old.toList ∧ range.Holds x.1.offset

instance (x : Position × Piece) : Decidable (r.Hits range x) :=
  inferInstanceAs (Decidable (_ ∧ _))

/-- The piece, with the new name if it is the old one and begins in the range. -/
def replace (x : Position × Piece) : Piece :=
  if r.Hits range x then ⟨x.2.role, r.new.toList⟩ else x.2

/-- The text with the name replaced where it begins in the range. -/
def apply (source : String) : String :=
  String.ofList ((ofText source).flatMap fun x => (r.replace range x).text)

/-- The second token is the first one, with the new name if it is the old one and begins in the
range. -/
structure Swaps (t t' : Token) : Prop where
  kind : t'.kind = t.kind
  lexeme : t'.lexeme =
    if t.kind = .identifier ∧ t.lexeme = r.old ∧ range.Holds t.span.start then r.new else t.lexeme
  literal : t'.literal = t.literal
  line : t'.line = t.line

end Renaming

/-! ## The words that are names -/

/-- A name is made of letters, digits and underscores, and is no keyword. -/
theorem Word.of_identifier {text : List Char} {literal : Option Literal}
    (h : Word text .identifier literal) : literal = none ∧ ∃ c cs, text = c :: cs ∧
      isNameStart c = true ∧ (∀ d ∈ cs, isNamePart d = true) ∧
      Kind.ofWord (String.ofList text) = .identifier := by
  generalize hkind : Kind.identifier = kind at h
  cases h with
  | keyword h =>
    have hall : ∀ entry ∈ Kind.keywords, Kind.identifier ≠ entry.2 := by decide
    exact absurd hkind (hall _ h)
  | @name c cs hc hcs hname =>
    obtain ⟨hkind, -⟩ := (Kind.ofWord_keywords (String.ofList (c :: cs))).resolve_left (hname _)
    exact ⟨rfl, c, cs, rfl, hc, hcs, hkind⟩
  | int | float | string => cases hkind
  | symbol h =>
    have hall : ∀ entry ∈ Kind.symbols, Kind.identifier ≠ entry.2 := by decide
    exact absurd hkind (hall _ h)

theorem ne_feed_of_isNamePart {c : Char} (h : isNamePart c = true) : c ≠ '\n' := by
  rintro rfl
  exact absurd h (by decide)

theorem isNamePart_of_isNameStart {c : Char} (h : isNameStart c = true) : isNamePart c = true := by
  simp only [isNameStart, isNamePart, Bool.or_eq_true, Char.isAlphanum] at *
  exact h.imp_left Or.inl

/-- A name has no line feed in it. -/
theorem Word.count_feed {text : List Char} {literal : Option Literal}
    (h : Word text .identifier literal) : text.count '\n' = 0 := by
  obtain ⟨-, c, cs, rfl, hc, hcs, -⟩ := h.of_identifier
  rw [List.count_eq_zero, List.mem_cons, not_or]
  constructor
  · exact (ne_feed_of_isNamePart (isNamePart_of_isNameStart hc)).symm
  · exact fun hmem => ne_feed_of_isNamePart (hcs _ hmem) rfl

/-! ## Texts that are the same up to names -/

/-- A name begins in both texts, or they are at their ends. -/
inductive NamesBegin : List Char → List Char → Prop
  | nil : NamesBegin [] []
  | name {c c' : Char} {cs cs' : List Char} (hc : isNameStart c = true)
      (hc' : isNameStart c' = true) : NamesBegin (c :: cs) (c' :: cs')

theorem isDigit_of_isNameStart {c : Char} (h : isNameStart c = true) : c.isDigit = false := by
  rw [← Bool.not_eq_true]
  intro hdigit
  rw [isNameStart_of_isDigit hdigit] at h
  cases h

theorem joined?_of_isNameStart {c d : Char} (hd : isNameStart d = true) :
    Piece.joined? c d = none := by
  unfold Piece.joined?
  split <;> first | rfl | exact absurd hd (by decide)

/-- Where a piece ends, names are not told from each other. -/
theorem neutral_namesBegin : Neutral NamesBegin where
  name h hcs := by
    cases h with
    | nil => rfl
    | name hc => simp [isNamePart_of_isNameStart hc] at hcs
  digit h _ := by
    cases h with
    | nil => rfl
    | name _ hc' => simp [isDigit_of_isNameStart hc']
  mark h := by
    rintro c hc
    cases h with
    | nil => cases hc
    | name _ hc' =>
      obtain rfl := Option.some.inj hc
      refine ⟨?_, ?_, ?_⟩ <;>
        rintro rfl <;> exact absurd hc' (by decide)
  joined h := by
    rintro d hd c
    cases h with
    | nil => cases hd
    | name _ hc' =>
      obtain rfl := Option.some.inj hd
      exact joined?_of_isNameStart hc'

theorem endsAlike_of_traces {cs cs' : List Char} (h : Traces NamesBegin cs cs') :
    EndsAlike cs cs' where
  text := by
    rintro rfl
    obtain ⟨⟨⟩⟩ := h
    rfl
  line := by
    intro hline
    cases h with
    | char => exact hline
    | stop h =>
      cases h with
      | nil => exact hline
      | name hc =>
        obtain rfl := Option.some.inj hline
        exact absurd hc (by decide)

/-! ## The pieces of the text -/

section

variable {r : Renaming} {range : Span}

/-- The text of pieces with the name replaced. -/
def Renaming.written (r : Renaming) (range : Span) (xs : List (Position × Piece)) : List Char :=
  xs.flatMap fun x => (r.replace range x).text

theorem Renaming.written_cons (x : Position × Piece) (xs : List (Position × Piece)) :
    r.written range (x :: xs) = (r.replace range x).text ++ r.written range xs :=
  List.flatMap_cons ..

/-- A piece stays as it is, or it is a name and is replaced. -/
theorem Renaming.replace_cases (r : Renaming) (range : Span) (x : Position × Piece) :
    ¬ r.Hits range x ∧ r.replace range x = x.2 ∨ r.Hits range x ∧ ∃ literal,
      x.2.role = .word .identifier literal ∧
        r.replace range x = ⟨.word .identifier literal, r.new.toList⟩ := by
  unfold replace
  split
  · rename_i h
    refine .inr ⟨h, ?_⟩
    have hname := h.1
    unfold Piece.isName at hname
    split at hname
    · rename_i literal hrole
      exact ⟨literal, hrole, by rw [hrole]⟩
    · cases hname
  · rename_i h
    exact .inl ⟨h, rfl⟩

/-- A piece that is a name is one from its first character on. -/
theorem isNameStart_of_role {c : Char} {cs : List Char} {literal : Option Literal}
    (h : (Piece.read c cs).1.role = .word .identifier literal) :
    literal = none ∧ isNameStart c = true := by
  have hfits := Piece.fits_read c cs
  rw [h] at hfits
  obtain ⟨hnone, d, ds, htext, hd, -⟩ := hfits.1.of_identifier
  rw [text_read] at htext
  rw [(List.cons.inj htext).1]
  exact ⟨hnone, hd⟩

/-- Where a name ends, a name of other characters ends too. -/
theorem pieces_name {n : Char} {ns cs rest : List Char} (hn : isNameStart n = true)
    (hns : ∀ c ∈ ns, isNamePart c = true) (h : Traces NamesBegin (cs.dropWhile isNamePart) rest) :
    pieces (n :: ns ++ rest) =
      ⟨.word (.ofWord (String.ofList (n :: ns))) none, n :: ns⟩ :: pieces rest := by
  have hrest := h.takeWhile neutral_namesBegin.name (Piece.takeWhile_dropWhile _ cs)
  have hdrop := List.takeWhile_append_dropWhile (p := isNamePart) (l := rest)
  rw [hrest, List.nil_append] at hdrop
  rw [List.cons_append, pieces, Piece.read_of_isNameStart hn, Piece.readName,
    List.takeWhile_append_of_pos hns, List.dropWhile_append_of_pos hns, hrest, hdrop,
    List.append_nil]

variable {literal : Option Literal} (hnew : Word r.new.toList .identifier literal)

include hnew

/-- Where the first piece is replaced, a name begins in both texts. -/
theorem traces_written (range : Span) (p : Position) (cs : List Char) :
    Traces NamesBegin cs (r.written range (located p (pieces cs))) := by
  fun_induction pieces cs generalizing p with
  | case1 => exact .stop .nil
  | case2 c cs x ih =>
    rw [located, Renaming.written_cons]
    rcases r.replace_cases range (p, x.1) with
      ⟨-, hsame⟩ | ⟨-, _, hrole, hreplace⟩
    · rw [hsame]
      have h := (ih (p.after x.1.text)).append x.1.text
      rwa [Piece.read_text] at h
    · obtain ⟨-, n, ns, hn, hstart, -⟩ := hnew.of_identifier
      rw [hreplace, hn, List.cons_append]
      exact .stop (.name (isNameStart_of_role hrole).2 hstart)

/-- The pieces of the text with the name replaced are those of the text, each with the name
replaced. -/
theorem pieces_written (p : Position) (cs : List Char) :
    pieces (r.written range (located p (pieces cs))) =
      (located p (pieces cs)).map (r.replace range) := by
  fun_induction pieces cs generalizing p with
  | case1 =>
    rw [located, List.map_nil]
    exact pieces.eq_1
  | case2 c cs x ih =>
    have htraces := traces_written hnew range (p.after x.1.text) x.2
    rw [located, Renaming.written_cons, List.map_cons, ← ih (p.after x.1.text)]
    rcases r.replace_cases range (p, x.1) with
      ⟨-, hsame⟩ | ⟨-, _, hrole, hreplace⟩
    · rw [hsame]
      exact pieces_of_traces neutral_namesBegin htraces (.inr (endsAlike_of_traces htraces))
    · obtain ⟨-, n, ns, hn, hstart, hparts, hkind⟩ := hnew.of_identifier
      obtain ⟨rfl, hc⟩ := isNameStart_of_role hrole
      have hbehind : x.2 = cs.dropWhile isNamePart :=
        congrArg Prod.snd (Piece.read_of_isNameStart hc cs)
      rw [hbehind] at htraces
      rw [hreplace, ← hkind, hn, hbehind]
      exact pieces_name hstart hparts htraces

/-! ## The tokens of the text -/

/-- Where the first place is on the same line as the second, so is the place behind a piece. -/
theorem line_replace (range : Span) {p p' : Position} (hline : p'.line = p.line) {piece : Piece}
    (hpiece : ∀ literal, piece.role = .word .identifier literal →
      Word piece.text .identifier literal) :
    (p'.after (r.replace range (p, piece)).text).line = (p.after piece.text).line := by
  rw [Position.line_after, Position.line_after, hline]
  rcases r.replace_cases range (p, piece) with ⟨-, hsame⟩ | ⟨-, _, hrole, hreplace⟩
  · rw [hsame]
  · rw [hreplace, hnew.count_feed, (hpiece _ hrole).count_feed]

omit hnew in
theorem token?_replace (r : Renaming) (range : Span) (p p' : Position) {q q' : Position}
    (hline : q'.line = q.line) (piece : Piece) :
    Option.Rel (r.Swaps range) (piece.token? p q)
      ((r.replace range (p, piece)).token? p' q') := by
  have hlexeme : ∀ text : List Char, String.ofList text = r.old ↔ text = r.old.toList :=
    fun text => ⟨fun h => by rw [← h, String.toList_ofList],
      fun h => by rw [h, String.ofList_toList]⟩
  unfold Piece.token?
  rcases r.replace_cases range (p, piece) with
    ⟨hmiss, hsame⟩ | ⟨hhit, literal', hrole, hreplace⟩
  · rw [hsame]
    obtain ⟨role, text⟩ := piece
    cases role with
    | word kind literal =>
      refine .some ⟨rfl, (if_neg ?_).symm, rfl, hline⟩
      rintro ⟨rfl, htext, hrange⟩
      exact hmiss ⟨rfl, (hlexeme text).1 htext, hrange⟩
    | _ => exact .none
  · rw [hreplace]
    obtain ⟨role, text⟩ := piece
    obtain rfl : role = _ := hrole
    refine .some ⟨rfl, ?_, rfl, hline⟩
    dsimp only
    rw [if_pos ⟨rfl, (hlexeme text).2 hhit.2.1, hhit.2.2⟩, String.ofList_toList]

theorem words_replace {p p' : Position} (hline : p'.line = p.line) {ps : List Piece}
    (hps : ∀ piece ∈ ps, ∀ literal, piece.role = .word .identifier literal →
      Word piece.text .identifier literal) :
    List.Forall₂ (r.Swaps range) (Scan.words p ps)
      (Scan.words p' ((located p ps).map (r.replace range))) := by
  induction ps generalizing p p' with
  | nil => exact .nil
  | cons piece ps ih =>
    rw [List.forall_mem_cons] at hps
    have hbehind := line_replace hnew range hline hps.1
    have hfirst := token?_replace r range p p' hbehind piece
    refine List.rel_append ?_ (ih hbehind hps.2)
    revert hfirst
    generalize piece.token? p _ = t
    generalize Piece.token? _ p' _ = t'
    rintro (h | _)
    · exact .cons h .nil
    · exact .nil

variable (range) (source : String)

theorem pieces_apply : pieces (r.apply range source).toList =
    (ofText source).map (r.replace range) := by
  rw [Renaming.apply, String.toList_ofList]
  exact pieces_written hnew .origin source.toList

/-- The tokens of the text with the name replaced are those of the text, each with the name
replaced. -/
theorem words_apply : List.Forall₂ (r.Swaps range) (Scan.words .origin (pieces source.toList))
    (Scan.words .origin (pieces (r.apply range source).toList)) := by
  rw [pieces_apply range hnew]
  refine words_replace hnew rfl fun piece hpiece literal hrole => ?_
  obtain ⟨ps, qs, hsplit⟩ := List.append_of_mem hpiece
  have hfits := fits_pieces hsplit
  rw [hrole] at hfits
  exact hfits.1

/-- Where no word of the text is a fault, none of the other text is. -/
theorem diagnostics_apply (h : (scan source).diagnostics = []) :
    (scan (r.apply range source)).diagnostics = [] := by
  rw [diagnostics_scan, Scan.faults_eq_nil_iff] at h ⊢
  rw [pieces_apply range hnew]
  intro piece hpiece fault hrole
  obtain ⟨x, hx, rfl⟩ := List.mem_map.1 hpiece
  rcases r.replace_cases range x with ⟨-, hsame⟩ | ⟨-, _, -, hreplace⟩
  · obtain ⟨ps, qs, hsplit, -⟩ := Scan.mem_located hx
    rw [hsame] at hrole
    exact h x.2 (hsplit ▸ List.mem_append_right _ List.mem_cons_self) fault hrole
  · rw [hreplace] at hrole
    cases hrole

end

end Scripting
