import Scripting.Proofs.Token.Roles

/-!
# Pieces before other texts

* `Traces Q` : texts that are the same up to where what is left is related by `Q`;
* `Neutral Q` : what stands behind a piece, and does not belong to it, may be replaced as `Q` says;
* `EndsAlike` : a text and its first line end where those of another text do;
* `Piece.read_of_traces`, `pieces_of_traces` : a piece is read in the same way before another text.

Only comments and strings that are not closed look at whether there is anything behind them.
-/

namespace Scripting

set_option autoImplicit false

open Piece (isNamePart)

/-! ## Texts that are the same up to some place -/

/-- The texts are the same up to where what is left is related by `Q`. -/
inductive Traces (Q : List Char → List Char → Prop) : List Char → List Char → Prop
  | stop {cs cs' : List Char} (h : Q cs cs') : Traces Q cs cs'
  | char (c : Char) {cs cs' : List Char} (h : Traces Q cs cs') : Traces Q (c :: cs) (c :: cs')

/-- A word that ends before the first text ends before the second one too. -/
structure Neutral (Q : List Char → List Char → Prop) : Prop where
  name : ∀ {cs cs'}, Q cs cs' → cs.takeWhile isNamePart = [] → cs'.takeWhile isNamePart = []
  digit : ∀ {cs cs'}, Q cs cs' → cs.takeWhile Char.isDigit = [] → cs'.takeWhile Char.isDigit = []
  mark : ∀ {cs cs'}, Q cs cs' → ∀ c ∈ cs'.head?, c ≠ '.' ∧ c ≠ '/' ∧ c ≠ '*'
  joined : ∀ {cs cs'}, Q cs cs' → ∀ d ∈ cs'.head?, ∀ c, Piece.joined? c d = none

/-- The second text ends, or its first line does, if the first one does. -/
structure EndsAlike (cs cs' : List Char) : Prop where
  text : cs = [] → cs' = []
  line : cs.head? = some '\n' → cs'.head? = some '\n'

variable {Q : List Char → List Char → Prop}

namespace Traces

variable {cs cs' : List Char}

theorem append (h : Traces Q cs cs') (ds : List Char) : Traces Q (ds ++ cs) (ds ++ cs') := by
  induction ds with
  | nil => exact h
  | cons d ds ih => exact .char d ih

theorem ne_cons (h : Traces Q cs cs') {c : Char} (hc : Q cs cs' → ∀ d ∈ cs'.head?, d ≠ c)
    (hcs : ∀ ds, cs ≠ c :: ds) (ds : List Char) : cs' ≠ c :: ds := by
  rintro rfl
  cases h with
  | stop h => exact hc h c rfl rfl
  | char => exact hcs _ rfl

/-- What ends at once in the first text does so in the second one. -/
theorem takeWhile {p : Char → Bool} (h : Traces Q cs cs')
    (hp : Q cs cs' → cs.takeWhile p = [] → cs'.takeWhile p = []) (hcs : cs.takeWhile p = []) :
    cs'.takeWhile p = [] := by
  cases h with
  | stop h => exact hp h hcs
  | char c =>
    cases hc : p c with
    | true => simp [hc] at hcs
    | false => simp [hc]

end Traces

/-! ## Pieces -/

namespace Piece

theorem takeWhile_again {p : Char → Bool} (cs : List Char) {rest : List Char}
    (h : rest.takeWhile p = []) :
    (cs.takeWhile p ++ rest).takeWhile p = cs.takeWhile p ∧
      (cs.takeWhile p ++ rest).dropWhile p = rest := by
  have hall : ∀ c ∈ cs.takeWhile p, p c = true := fun c hc => List.mem_takeWhile_imp hc
  have hsplit := List.takeWhile_append_dropWhile (p := p) (l := rest)
  rw [h, List.nil_append] at hsplit
  rw [List.takeWhile_append_of_pos hall, List.dropWhile_append_of_pos hall, h, hsplit,
    List.append_nil]
  exact ⟨rfl, rfl⟩

theorem takeWhile_dropWhile (p : Char → Bool) (cs : List Char) :
    (cs.dropWhile p).takeWhile p = [] := by
  have hfirst := List.head?_dropWhile_not p cs
  cases h : cs.dropWhile p with
  | nil => rfl
  | cons c ds =>
    rw [h] at hfirst
    exact List.takeWhile_cons_of_neg (by simpa using hfirst)

/-- Digits, a dot and a digit are read as one number with the digits behind. -/
theorem readNumber_of_isDigit {c d : Char} {cs es : List Char} (hd : d.isDigit = true)
    (hcs : cs.dropWhile Char.isDigit = '.' :: d :: es) : readNumber c cs =
      (⟨floatRole (c :: cs.takeWhile Char.isDigit) ((d :: es).takeWhile Char.isDigit),
        c :: cs.takeWhile Char.isDigit ++ '.' :: (d :: es).takeWhile Char.isDigit⟩,
      (d :: es).dropWhile Char.isDigit) := by
  rw [readNumber, hcs]
  simp only [if_pos hd]

/-- Digits that no dot and digit follow are a number. -/
theorem readNumber_of_not_isDigit {c : Char} {cs : List Char}
    (hcs : ∀ es, cs.dropWhile Char.isDigit = '.' :: es → es.takeWhile Char.isDigit = []) :
    readNumber c cs = (⟨intRole (c :: cs.takeWhile Char.isDigit), c :: cs.takeWhile Char.isDigit⟩,
      cs.dropWhile Char.isDigit) := by
  unfold readNumber
  split
  · rename_i d es hdrop
    have hd : ¬ d.isDigit = true := fun hd => by
      have := hcs _ hdrop
      simp [hd] at this
    rw [if_neg hd, hdrop]
  · rfl

theorem readSingle_eq (c : Char) (cs : List Char) :
    readSingle c cs = ((readSingle c []).1, cs) := by
  unfold readSingle
  split
  · rfl
  · split <;> rfl

theorem text_readSingle (c : Char) : (readSingle c []).1.text = [c] := by
  unfold readSingle
  split
  · rfl
  · split <;> rfl

theorem readSymbol_of_joined? {c d : Char} {kind : Kind} (h : joined? c d = some kind)
    (cs : List Char) : readSymbol c (d :: cs) = (⟨.word kind none, [c, d]⟩, cs) := by
  simp only [readSymbol, h]

theorem readSymbol_of_not_joined? {c : Char} {cs : List Char}
    (h : ∀ d ∈ cs.head?, joined? c d = none) : readSymbol c cs = ((readSingle c []).1, cs) := by
  cases cs with
  | nil => rw [readSymbol, readSingle_eq]
  | cons d cs => rw [readSymbol, h d rfl, readSingle_eq]

theorem readSlash_of_symbol {cs : List Char} (hslash : ∀ ds, cs ≠ '/' :: ds)
    (hstar : ∀ ds, cs ≠ '*' :: ds) : readSlash cs = readSymbol '/' cs := by
  rw [readSlash]
  · exact hslash
  · exact hstar

/-- What has been read of a comment is read again, and what is behind it is not looked at. -/
theorem blockComment_again {cs : List Char} (h : closes 0 cs = true) (rest : List Char) :
    blockComment 0 ((blockComment 0 cs).1 ++ rest) = ((blockComment 0 cs).1, rest) := by
  have hagain := (closes_blockComment 0 cs).trans h
  have hfirst := blockComment_append_of_closes hagain (blockComment 0 cs).2
  rw [blockComment_append] at hfirst
  have hbehind := List.self_eq_append_left.1 (congrArg Prod.snd hfirst)
  rw [blockComment_append_of_closes hagain, ← congrArg Prod.fst hfirst, hbehind, List.nil_append]

section

variable {c : Char} {cs rest : List Char} (hQ : Neutral Q)

include hQ

theorem readName_of_traces (h : Traces Q (readName c cs).2 rest) :
    readName c ((readName c cs).1.text.tail ++ rest) = ((readName c cs).1, rest) := by
  obtain ⟨htake, hdrop⟩ := takeWhile_again cs (h.takeWhile hQ.name (takeWhile_dropWhile _ cs))
  simp only [readName, List.tail_cons, htake, hdrop]

theorem readNumber_of_traces (h : Traces Q (readNumber c cs).2 rest) :
    readNumber c ((readNumber c cs).1.text.tail ++ rest) = ((readNumber c cs).1, rest) := by
  by_cases hdot : ∃ d es, cs.dropWhile Char.isDigit = '.' :: d :: es ∧ d.isDigit = true
  · obtain ⟨d, es, hcs, hd⟩ := hdot
    rw [readNumber_of_isDigit hd hcs] at h ⊢
    obtain ⟨htake, hdrop⟩ :=
      takeWhile_again (d :: es) (h.takeWhile hQ.digit (takeWhile_dropWhile _ _))
    have hdigits : ∀ c ∈ cs.takeWhile Char.isDigit, c.isDigit = true :=
      fun c hc => List.mem_takeWhile_imp hc
    rw [List.takeWhile_cons_of_pos hd, List.cons_append] at htake hdrop
    simp only [List.cons_append, List.tail_cons, List.append_assoc]
    rw [List.takeWhile_cons_of_pos hd, List.cons_append, readNumber_of_isDigit hd]
    · rw [htake, hdrop, List.takeWhile_append_of_pos hdigits,
        List.takeWhile_cons_of_neg (by decide), List.append_nil]
      rfl
    · rw [List.dropWhile_append_of_pos hdigits, List.dropWhile_cons_of_neg (by decide)]
  · have hcs : ∀ es, cs.dropWhile Char.isDigit = '.' :: es → es.takeWhile Char.isDigit = [] := by
      intro es hcs
      cases es with
      | nil => rfl
      | cons d es => exact List.takeWhile_cons_of_neg fun hd => hdot ⟨d, es, hcs, hd⟩
    rw [readNumber_of_not_isDigit hcs] at h ⊢
    obtain ⟨htake, hdrop⟩ := takeWhile_again cs (h.takeWhile hQ.digit (takeWhile_dropWhile _ cs))
    rw [List.tail_cons, readNumber_of_not_isDigit]
    · rw [htake, hdrop]
    · rw [hdrop]
      rintro es rfl
      generalize cs.dropWhile Char.isDigit = behind at h hcs
      -- a dot can only be there if it was before, and what follows it is no digit again
      cases h with
      | stop h => exact absurd rfl (hQ.mark h _ rfl).1
      | char _ h => exact h.takeWhile hQ.digit (hcs _ rfl)

theorem readSymbol_of_traces (h : Traces Q (readSymbol c cs).2 rest) :
    readSymbol c ((readSymbol c cs).1.text.tail ++ rest) = ((readSymbol c cs).1, rest) := by
  by_cases hjoined : ∃ d ds kind, cs = d :: ds ∧ joined? c d = some kind
  · obtain ⟨d, ds, kind, rfl, hkind⟩ := hjoined
    rw [readSymbol_of_joined? hkind]
    exact readSymbol_of_joined? hkind rest
  · have hcs : ∀ d ∈ cs.head?, joined? c d = none := by
      intro d hd
      obtain ⟨ds, rfl⟩ := List.head?_eq_some_iff.1 hd
      exact Option.eq_none_iff_forall_ne_some.2 fun kind hkind => hjoined ⟨d, ds, kind, rfl, hkind⟩
    rw [readSymbol_of_not_joined? hcs] at h ⊢
    rw [text_readSingle, List.tail_cons, List.nil_append]
    refine readSymbol_of_not_joined? fun d hd => ?_
    cases h with
    | stop h => exact hQ.joined h d hd c
    | char e h => exact hcs d hd

omit hQ in
theorem readString_of_ends (hends : (∃ kind literal,
      (readString cs).1.role = .word kind literal) ∨ EndsAlike (readString cs).2 rest) :
    readString ((readString cs).1.text.tail ++ rest) = ((readString cs).1, rest) := by
  have hdrop := takeWhile_dropWhile (· ≠ '"') cs
  cases hcs : cs.dropWhile (· ≠ '"') with
  | nil =>
    simp only [readString, hcs] at hends ⊢
    obtain rfl := (hends.resolve_left nofun).text rfl
    have hnothing : [].takeWhile (· ≠ '"') = [] := rfl
    obtain ⟨htake, hdrop⟩ := takeWhile_again cs hnothing
    simp only [List.tail_cons, htake, hdrop]
  | cons quote behind =>
    rw [hcs] at hdrop
    have hquote : (quote :: rest).takeWhile (· ≠ '"') = [] := by
      by_cases hq : quote = '"'
      · simp [hq]
      · simp [hq] at hdrop
    obtain ⟨htake, hdrop⟩ := takeWhile_again cs hquote
    simp only [readString, hcs, List.cons_append, List.tail_cons, List.append_assoc,
      List.nil_append, htake, hdrop]

theorem readSlash_of_traces (h : Traces Q (readSlash cs).2 rest)
    (hends : (∃ kind literal, (readSlash cs).1.role = .word kind literal) ∨
      EndsAlike (readSlash cs).2 rest) :
    readSlash ((readSlash cs).1.text.tail ++ rest) = ((readSlash cs).1, rest) := by
  by_cases hslash : ∃ ds, cs = '/' :: ds
  · obtain ⟨ds, rfl⟩ := hslash
    have hends : EndsAlike (ds.dropWhile (· ≠ '\n')) rest :=
      hends.resolve_left (by rintro ⟨_, _, ⟨⟩⟩)
    have hrest : rest.takeWhile (· ≠ '\n') = [] := by
      have hdrop := takeWhile_dropWhile (· ≠ '\n') ds
      cases hds : ds.dropWhile (· ≠ '\n') with
      | nil => rw [hends.text hds]; rfl
      | cons c es =>
        rw [hds] at hdrop hends
        by_cases hc : c = '\n'
        · subst hc
          obtain ⟨es', rfl⟩ := List.head?_eq_some_iff.1 (hends.line rfl)
          rfl
        · simp [hc] at hdrop
    obtain ⟨htake, hdrop⟩ := takeWhile_again ds hrest
    simp only [readSlash, List.tail_cons, List.cons_append, htake, hdrop]
  · by_cases hstar : ∃ ds, cs = '*' :: ds
    · obtain ⟨ds, rfl⟩ := hstar
      have hends : EndsAlike (blockComment 0 ds).2 rest :=
        hends.resolve_left (by rintro ⟨_, _, ⟨⟩⟩)
      cases hcloses : closes 0 ds with
      | true =>
        simp only [readSlash, List.tail_cons, List.cons_append, blockComment_again hcloses]
      | false =>
        have hopen := blockComment_of_not_closes hcloses
        rw [hends.text (congrArg Prod.snd hopen)]
        simp only [readSlash, hopen, List.tail_cons, List.append_nil]
    · rw [not_exists] at hslash hstar
      rw [readSlash_of_symbol hslash hstar] at h ⊢
      have htext := congrArg List.tail (readSymbol_text '/' cs)
      rw [List.tail_append_of_ne_nil (readSymbol_ne_nil '/' cs), List.tail_cons] at htext
      have hagain := h.append (readSymbol '/' cs).1.text.tail
      rw [htext] at hagain
      rw [readSlash_of_symbol, readSymbol_of_traces hQ h]
      · exact hagain.ne_cons (fun h d hd => (hQ.mark h d hd).2.1) hslash
      · exact hagain.ne_cons (fun h d hd => (hQ.mark h d hd).2.2) hstar

/-- A piece is read in the same way before another text that goes on as the first one did. A piece
that is no word may need to be at the end of the text, or of a line, again. -/
theorem read_of_traces (h : Traces Q (read c cs).2 rest)
    (hends : (∃ kind literal, (read c cs).1.role = .word kind literal) ∨
      EndsAlike (read c cs).2 rest) :
    read c ((read c cs).1.text.tail ++ rest) = ((read c cs).1, rest) := by
  unfold read at h hends ⊢
  split
  · rfl
  · rename_i hspace
    rw [if_neg hspace] at h hends
    split
    · rename_i hname
      rw [if_pos hname] at h
      exact readName_of_traces hQ h
    · rename_i hname
      rw [if_neg hname] at h hends
      split
      · rename_i hdigit
        rw [if_pos hdigit] at h
        exact readNumber_of_traces hQ h
      · rename_i hdigit
        rw [if_neg hdigit] at h hends
        split
        · rename_i hquote
          rw [if_pos hquote] at hends
          exact readString_of_ends hends
        · rename_i hquote
          rw [if_neg hquote] at h hends
          split
          · rename_i hslash
            rw [if_pos hslash] at h hends
            exact readSlash_of_traces hQ h hends
          · rename_i hslash
            rw [if_neg hslash] at h
            exact readSymbol_of_traces hQ h

end

end Piece

theorem text_read (c : Char) (cs : List Char) :
    (Piece.read c cs).1.text = c :: (Piece.read c cs).1.text.tail := by
  have htext := Piece.read_text c cs
  cases h : (Piece.read c cs).1.text with
  | nil => exact absurd h (Piece.read_ne_nil c cs)
  | cons d ds =>
    rw [h, List.cons_append] at htext
    rw [(List.cons.inj htext).1, List.tail_cons]

theorem pieces_of_traces (hQ : Neutral Q) {c : Char} {cs rest : List Char}
    (h : Traces Q (Piece.read c cs).2 rest)
    (hends : (∃ kind literal, (Piece.read c cs).1.role = .word kind literal) ∨
      EndsAlike (Piece.read c cs).2 rest) :
    pieces ((Piece.read c cs).1.text ++ rest) = (Piece.read c cs).1 :: pieces rest := by
  rw [text_read, List.cons_append, pieces, Piece.read_of_traces hQ h hends]

end Scripting
