import Scripting.Proofs.Token.Behind
import Scripting.Proofs.Token.Tiles

/-!
# Texts cut out of others

* `Severed` : what may stand behind a word that something else was cut off from
  (`neutral_severed`);
* `pieces_severed`, `pieces_behind` : the pieces of the front of a text that ends with a word, and
  those of the end of a text;
* `Scan.words_split` : the piece that a token is the word of, between the others;
* `CutOut source us before text behind` : the text of the tokens `us`, cut out of the source
  (`exists_cutOut`).
-/

namespace Scripting

set_option autoImplicit false

open Piece (isNamePart)
open Position (byteCount)

/-! ## Texts that are cut off -/

/-- There is nothing behind the cut, or a semicolon. -/
def Severed (_ cs' : List Char) : Prop := ∀ c ∈ cs'.head?, c = ';'

theorem joined?_semicolon (c : Char) : Piece.joined? c ';' = none := by
  unfold Piece.joined?
  split <;> simp_all

/-- A semicolon is no part of the word before it. -/
theorem neutral_severed : Neutral Severed where
  name {_ cs'} h _ := by
    cases cs' with
    | nil => rfl
    | cons c cs' => rw [h c rfl]; rfl
  digit {_ cs'} h _ := by
    cases cs' with
    | nil => rfl
    | cons c cs' => rw [h c rfl]; rfl
  mark h c hc := by
    rw [h c hc]
    decide
  joined h d hd c := by
    rw [h d hd]
    exact joined?_semicolon c

/-! ## Pieces of parts of a text -/

/-- The first piece of a text, and what is behind it. -/
theorem pieces_eq_cons {cs : List Char} {piece : Piece} {ps : List Piece}
    (h : pieces cs = piece :: ps) : ∃ c ds, cs = c :: ds ∧ piece = (Piece.read c ds).1 ∧
      ps = pieces (Piece.read c ds).2 ∧ cs = piece.text ++ (Piece.read c ds).2 := by
  cases cs with
  | nil =>
    rw [pieces] at h
    cases h
  | cons c ds =>
    rw [pieces] at h
    obtain ⟨rfl, rfl⟩ := List.cons.inj h
    exact ⟨c, ds, rfl, rfl, rfl, (Piece.read_text c ds).symm⟩

/-- The end of a text has the pieces that it has there. -/
theorem pieces_behind {cs : List Char} {ps qs : List Piece} (h : pieces cs = ps ++ qs) :
    pieces (qs.flatMap Piece.text) = qs := by
  induction ps generalizing cs with
  | nil => rw [← List.nil_append qs, ← h, flatMap_text_pieces]
  | cons piece ps ih =>
    obtain ⟨_, _, -, -, hps, -⟩ := pieces_eq_cons h
    exact ih hps.symm

/-- The front of a text has the pieces that it has there, if the last of them is a word. -/
theorem pieces_severed {ps qs : List Piece} {cs cs' : List Char} {last : Piece}
    (h : pieces (ps.flatMap Piece.text ++ cs) = ps ++ qs) (hlast : ps.getLast? = some last)
    (hword : ∃ kind literal, last.role = .word kind literal) (hcs' : Severed cs cs') :
    pieces (ps.flatMap Piece.text ++ cs') = ps ++ pieces cs' := by
  induction ps with
  | nil => cases hlast
  | cons piece ps ih =>
    rw [List.cons_append] at h
    obtain ⟨c, ds, -, hpiece, hps, hsplit⟩ := pieces_eq_cons h
    rw [List.flatMap_cons, List.append_assoc] at hsplit ⊢
    have hbehind := List.append_cancel_left hsplit
    have htraces : Traces Severed (Piece.read c ds).2 (ps.flatMap Piece.text ++ cs') := by
      rw [← hbehind]
      exact (Traces.stop hcs').append _
    rw [hpiece, pieces_of_traces neutral_severed htraces, List.cons_append]
    · cases ps with
      | nil => rfl
      | cons next ps =>
        rw [ih (by rw [hbehind, ← hps]) (by rwa [List.getLast?_cons_cons] at hlast)]
    · cases ps with
      | nil =>
        obtain rfl := Option.some.inj hlast
        exact .inl (hpiece ▸ hword)
      | cons next ps =>
        -- the next piece has a character, and this one stays
        have hmem : next ∈ pieces (Piece.read c ds).2 := by
          rw [← hps]
          exact List.mem_append_left _ List.mem_cons_self
        have hne := Scan.text_ne_nil_of_mem_pieces hmem
        obtain ⟨d, es, hd⟩ := List.exists_cons_of_ne_nil hne
        rw [← hbehind, List.flatMap_cons, hd]
        exact .inr ⟨nofun, id⟩

/-! ## Tokens of parts of a text -/

namespace Scan

/-- The piece that a token is the word of stands between those of the tokens around it. -/
theorem words_split {p : Position} {ps : List Piece} {as bs : List Token} {t : Token}
    (h : words p ps = as ++ t :: bs) : ∃ qs piece rs, ps = qs ++ piece :: rs ∧ words p qs = as ∧
      words p (qs ++ [piece]) = as ++ [t] ∧ piece.token? (p.after (qs.flatMap Piece.text))
        (p.after ((qs ++ [piece]).flatMap Piece.text)) = some t := by
  induction ps generalizing p as with
  | nil => cases as <;> cases h
  | cons piece ps ih =>
    have hbehind : ∀ {as' : List Token}, words (p.after piece.text) ps = as' ++ t :: bs →
        ∃ qs piece' rs, piece :: ps = qs ++ piece' :: rs ∧
          words p qs = (piece.token? p (p.after piece.text)).toList ++ as' ∧
          words p (qs ++ [piece']) =
            (piece.token? p (p.after piece.text)).toList ++ as' ++ [t] ∧
          piece'.token? (p.after (qs.flatMap Piece.text))
            (p.after ((qs ++ [piece']).flatMap Piece.text)) = some t := by
      intro as' h
      obtain ⟨qs, piece', rs, rfl, hqs, hnext, htoken⟩ := ih h
      refine ⟨piece :: qs, piece', rs, rfl, ?_, ?_, ?_⟩
      · rw [words, hqs]
      · rw [List.cons_append, words, hnext, List.append_assoc]
      · rwa [List.flatMap_cons, List.cons_append, List.flatMap_cons, Position.after_append,
          Position.after_append]
    rw [words] at h
    cases htoken : piece.token? p (p.after piece.text) with
    | none =>
      rw [htoken] at h hbehind
      exact hbehind h
    | some u =>
      rw [htoken] at h hbehind
      cases as with
      | nil =>
        obtain ⟨rfl, -⟩ := List.cons.inj h
        refine ⟨[], piece, ps, rfl, rfl, ?_, by simpa using htoken⟩
        rw [List.nil_append, words, htoken]
        rfl
      | cons a as =>
        obtain ⟨rfl, hrest⟩ := List.cons.inj h
        exact hbehind hrest

end Scan

theorem Piece.role_of_token? {piece : Piece} {p q : Position} {t : Token}
    (h : piece.token? p q = some t) :
    (∃ kind literal, piece.role = .word kind literal) ∧ t.span = ⟨p.offset, q.offset⟩ := by
  unfold token? at h
  split at h
  · rename_i hrole
    obtain rfl := Option.some.inj h
    exact ⟨⟨_, _, hrole⟩, rfl⟩
  · cases h

/-- The text is that of the tokens `us` of the source, from the start of the first to the stop of
the last. By itself it has the same tokens, moved back, and a semicolon behind it adds one only. -/
structure CutOut (source : String) (us : List Token) (before text behind : String) : Prop where
  split : source = before ++ text ++ behind
  start : us.head?.map (·.span.start) = some before.utf8ByteSize
  stop : us.getLast?.map (·.span.stop) = some (before.utf8ByteSize + text.utf8ByteSize)
  words : us = (Scan.words .origin (pieces text.toList)).map (Token.move (.behind before.toList))
  pieces_subset : pieces text.toList ⊆ pieces source.toList
  semicolon : pieces (text ++ ";").toList = pieces text.toList ++ [⟨.word .semicolon none, [';']⟩]

/-- The pieces of tokens that follow each other begin with that of the first and end with that of
the last. -/
theorem Scan.words_between {p : Position} {ps : List Piece} {as us bs : List Token}
    (h : words p ps = as ++ us ++ bs) (hne : us ≠ []) :
    ∃ qs ms rs last, ps = qs ++ ms ++ rs ∧ words (p.after (qs.flatMap Piece.text)) ms = us ∧
      ms.getLast? = some last ∧ (∃ kind literal, last.role = .word kind literal) ∧
      us.head?.map (·.span.start) = some (p.after (qs.flatMap Piece.text)).offset ∧
      us.getLast?.map (·.span.stop) = some (p.after ((qs ++ ms).flatMap Piece.text)).offset := by
  -- first the piece of the last token, and then among those up to it the piece of the first
  obtain ⟨front, t, hus⟩ := (List.eq_nil_or_concat us).resolve_left hne
  obtain ⟨u, others, hus'⟩ := List.exists_cons_of_ne_nil hne
  rw [List.concat_eq_append] at hus
  have hlast : words p ps = (as ++ front) ++ t :: bs := by
    rw [h, hus]
    simp
  obtain ⟨upto, last, rs, rfl, -, hupto, htoken⟩ := words_split hlast
  rw [List.append_assoc, ← hus, hus'] at hupto
  obtain ⟨qs, first, ms, hsplit, hqs, -, htoken'⟩ := words_split hupto
  refine ⟨qs, first :: ms, rs, last, ?_, ?_, ?_, (Piece.role_of_token? htoken).1, ?_, ?_⟩
  · rw [← hsplit, List.append_assoc]
    rfl
  · rw [hsplit, words_append, hqs] at hupto
    rw [List.append_cancel_left hupto, hus']
  · have hends := congrArg List.getLast? hsplit
    rwa [List.getLast?_concat, List.getLast?_append, List.getLast?_cons, Option.some_or,
      ← List.getLast?_cons, eq_comm] at hends
  · rw [hus', List.head?_cons, Option.map_some, (Piece.role_of_token? htoken').2]
  · rw [hus, List.getLast?_concat, Option.map_some, (Piece.role_of_token? htoken).2, ← hsplit]

theorem pieces_semicolon : pieces [';'] = [⟨.word .semicolon none, [';']⟩] := by
  rw [pieces]
  exact congrArg (_ :: ·) pieces.eq_1

/-- Tokens of a source that follow each other can be cut out. -/
theorem exists_cutOut {source : String} {us : List Token}
    (h : us <:+: Scan.words .origin (pieces source.toList)) (hne : us ≠ []) :
    ∃ before text behind, CutOut source us before text behind := by
  obtain ⟨as, bs, hwords⟩ := h
  obtain ⟨qs, ms, rs, last, hsplit, hwords, hlast, hword, hstart, hstop⟩ :=
    Scan.words_between hwords.symm hne
  have hbehind := pieces_behind (hsplit.trans (List.append_assoc ..))
  rw [List.flatMap_append] at hbehind
  have hnothing : Severed (rs.flatMap Piece.text) [] := nofun
  have htext : pieces (ms.flatMap Piece.text) = ms := by
    simpa [pieces] using pieces_severed hbehind hlast hword hnothing
  refine ⟨.ofList (qs.flatMap Piece.text), .ofList (ms.flatMap Piece.text),
    .ofList (rs.flatMap Piece.text), ?_, ?_, ?_, ?_, ?_, ?_⟩
  · rw [← String.ofList_append, ← String.ofList_append, ← List.flatMap_append,
      ← List.flatMap_append, ← hsplit, flatMap_text_pieces, String.ofList_toList]
  · rw [hstart, Position.offset_after, utf8ByteSize_ofList]
    exact congrArg some (Nat.zero_add _)
  · rw [hstop, Position.offset_after, utf8ByteSize_ofList, utf8ByteSize_ofList, ← byteCount_append,
      ← List.flatMap_append]
    exact congrArg some (Nat.zero_add _)
  · rw [String.toList_ofList, String.toList_ofList, htext, ← Scan.words_move,
      ← Position.after_eq_move, hwords]
  · rw [String.toList_ofList, htext, hsplit]
    exact List.subset_append_of_subset_left _ (List.subset_append_right _ _)
  · have hsemicolon : Severed (rs.flatMap Piece.text) [';'] := fun c hc => (Option.some.inj hc).symm
    rw [String.toList_append, String.toList_ofList, htext]
    exact (pieces_severed hbehind hlast hword hsemicolon).trans (by rw [pieces_semicolon])

end Scripting
