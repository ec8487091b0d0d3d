import Scripting.Proofs.Move.Basic
import Scripting.Parser.Program

/-!
# Texts behind texts

* `Piece.closes`, `Piece.isOpen` : whether a block comment comes to its end;
* `Piece.endsAt` : whether a piece at the end of a text stays the same before a blank character;
* `pieces_append` : the pieces of two texts with a blank character between them;
* `words`, `faults` : the tokens and the faults of pieces from a place on (`tokens_ofPieces`,
  `words_append`, `words_move`).
-/

namespace Scripting

set_option autoImplicit false

namespace Piece

/-! ## Blank characters -/

section

variable {w : Char} (hw : isSpace w = true)

include hw

theorem eq_of_isSpace : w = ' ' ∨ w = '\r' ∨ w = '\t' ∨ w = '\n' := by
  simpa [isSpace, or_assoc] using hw

theorem isNamePart_of_isSpace : isNamePart w = false := by
  rcases eq_of_isSpace hw with rfl | rfl | rfl | rfl <;> decide

theorem isDigit_of_isSpace : w.isDigit = false := by
  rcases eq_of_isSpace hw with rfl | rfl | rfl | rfl <;> decide

/-- No symbol has a blank character in it. -/
theorem joined?_of_isSpace (c : Char) : joined? c w = none := by
  rcases eq_of_isSpace hw with rfl | rfl | rfl | rfl <;> unfold joined? <;> split <;>
    simp_all

end

theorem takeWhile_append_cons {α : Type} {p : α → Bool} {a : α} (ha : p a = false)
    (as bs : List α) : (as ++ a :: bs).takeWhile p = as.takeWhile p := by
  rw [List.takeWhile_append]
  split
  · rename_i h
    rw [List.takeWhile_cons_of_neg (by simp [ha]), List.append_nil]
    exact (List.takeWhile_prefix p).eq_of_length h |>.symm
  · rfl

theorem dropWhile_append_cons {α : Type} {p : α → Bool} {a : α} (ha : p a = false)
    (as bs : List α) : (as ++ a :: bs).dropWhile p = as.dropWhile p ++ a :: bs := by
  rw [List.dropWhile_append]
  split
  · rename_i h
    rw [List.isEmpty_iff.1 h, List.dropWhile_cons_of_neg (by simp [ha]), List.nil_append]
  · rfl

theorem dropWhile_append_of_ne_nil {α : Type} {p : α → Bool} {as : List α}
    (h : as.dropWhile p ≠ []) (bs : List α) : (as ++ bs).dropWhile p = as.dropWhile p ++ bs := by
  rw [List.dropWhile_append, if_neg (by simpa using h)]

theorem takeWhile_append_of_ne_nil {α : Type} {p : α → Bool} {as : List α}
    (h : as.dropWhile p ≠ []) (bs : List α) : (as ++ bs).takeWhile p = as.takeWhile p := by
  have hsplit := List.takeWhile_append_dropWhile (p := p) (l := as)
  have hpos := List.length_pos_iff.2 h
  rw [List.takeWhile_append, if_neg]
  intro hlen
  have := congrArg List.length hsplit
  rw [List.length_append] at this
  omega

/-! ## Comments that come to their end -/

/-- Whether the comment that is open inside `depth` others comes to its end in the text. -/
def closes : (depth : Nat) → List Char → Bool
  | _, [] => false
  | depth, '/' :: '*' :: cs => closes (depth + 1) cs
  | 0, '*' :: '/' :: _ => true
  | depth + 1, '*' :: '/' :: cs => closes depth cs
  | depth, _ :: cs => closes depth cs

/-- Whether the piece is a block comment that runs to the end of the text without being closed. -/
def isOpen (piece : Piece) : Bool :=
  match piece.role with
  | .blockComment => !closes 0 (piece.text.drop 2)
  | _ => false

/-- Whether two characters open or close a comment. -/
def isMark (c : Char) (cs : List Char) : Prop :=
  (c = '/' ∧ cs.head? = some '*') ∨ (c = '*' ∧ cs.head? = some '/')

theorem closes_cons {c : Char} {cs : List Char} (h : ¬ isMark c cs) (depth : Nat) :
    closes depth (c :: cs) = closes depth cs := by
  rw [closes]
  · rintro cs' rfl rfl
    exact h (.inl ⟨rfl, rfl⟩)
  · rintro cs' - rfl rfl
    exact h (.inr ⟨rfl, rfl⟩)
  · rintro n cs' - rfl rfl
    exact h (.inr ⟨rfl, rfl⟩)

theorem blockComment_cons {c : Char} {cs : List Char} (h : ¬ isMark c cs) (depth : Nat) :
    blockComment depth (c :: cs) =
      (c :: (blockComment depth cs).1, (blockComment depth cs).2) := by
  rw [blockComment]
  · rintro cs' rfl rfl
    exact h (.inl ⟨rfl, rfl⟩)
  · rintro cs' - rfl rfl
    exact h (.inr ⟨rfl, rfl⟩)
  · rintro n cs' - rfl rfl
    exact h (.inr ⟨rfl, rfl⟩)

theorem not_isMark {depth : Nat} {c : Char} {cs : List Char}
    (hopen : ∀ ds, c = '/' → cs = '*' :: ds → False)
    (hlast : ∀ ds, depth = 0 → c = '*' → cs = '/' :: ds → False)
    (hinner : ∀ n ds, depth = n + 1 → c = '*' → cs = '/' :: ds → False) : ¬ isMark c cs := by
  rintro (⟨hc, h⟩ | ⟨hc, h⟩)
  · obtain ⟨ds, hds⟩ := List.head?_eq_some_iff.1 h
    exact hopen ds hc hds
  · obtain ⟨ds, hds⟩ := List.head?_eq_some_iff.1 h
    cases depth with
    | zero => exact hlast ds rfl hc hds
    | succ n => exact hinner n ds rfl hc hds

/-- What follows a comment that comes to its end does not belong to it. -/
theorem blockComment_append_of_closes {depth : Nat} {cs : List Char} (h : closes depth cs = true)
    (ds : List Char) : blockComment depth (cs ++ ds) =
      ((blockComment depth cs).1, (blockComment depth cs).2 ++ ds) := by
  fun_induction closes depth cs with
  | case1 => cases h
  | case2 depth cs ih => simp only [List.cons_append, blockComment, ih h]
  | case3 cs => simp only [List.cons_append, blockComment]
  | case4 depth cs ih => simp only [List.cons_append, blockComment, ih h]
  | case5 depth c cs hopen hlast hinner ih =>
    have hmark := not_isMark hopen hlast hinner
    have hmark' : ¬ isMark c (cs ++ ds) := by
      cases cs with
      | nil => cases h
      | cons d cs => exact hmark
    rw [List.cons_append, blockComment_cons hmark', blockComment_cons hmark, ih h]

theorem head?_blockComment (depth : Nat) (cs : List Char) :
    (blockComment depth cs).1.head? = cs.head? := by
  fun_cases blockComment depth cs <;> rfl

/-- The comment itself tells whether it comes to its end. -/
theorem closes_blockComment (depth : Nat) (cs : List Char) :
    closes depth (blockComment depth cs).1 = closes depth cs := by
  fun_induction blockComment depth cs with
  | case1 => rfl
  | case2 depth cs r ih => simpa only [closes] using ih
  | case3 => rfl
  | case4 depth cs r ih => simpa only [closes] using ih
  | case5 depth c cs hopen hlast hinner r ih =>
    have hmark := not_isMark hopen hlast hinner
    have hmark' : ¬ isMark c r.1 := by
      rwa [isMark, head?_blockComment]
    rw [closes_cons hmark', closes_cons hmark, ih]

/-! ## A piece before a blank character -/

/-- Whether the piece, at the end of a text, stays the same if the blank `w` follows it. -/
def endsAt (w : Char) (piece : Piece) : Prop :=
  match piece.role with
  | .lineComment => w = '\n'
  | .blockComment => closes 0 (piece.text.drop 2) = true
  | .fault .unterminatedString => False
  | _ => True

section

variable {w : Char} (hw : isSpace w = true) (ds : List Char)

include hw

theorem readName_append (c : Char) (cs : List Char) :
    readName c (cs ++ w :: ds) = ((readName c cs).1, (readName c cs).2 ++ w :: ds) := by
  have hpart := isNamePart_of_isSpace hw
  simp only [readName, takeWhile_append_cons hpart, dropWhile_append_cons hpart]

theorem readNumber_append (c : Char) (cs : List Char) :
    readNumber c (cs ++ w :: ds) = ((readNumber c cs).1, (readNumber c cs).2 ++ w :: ds) := by
  have hdigit := isDigit_of_isSpace hw
  have hdot : w ≠ '.' := by
    rintro rfl
    exact absurd hw (by decide)
  have h := dropWhile_append_cons hdigit cs ds
  unfold readNumber
  rw [takeWhile_append_cons hdigit, h]
  cases hcs : cs.dropWhile Char.isDigit with
  | nil =>
    simp only [List.nil_append]
    split
    · rename_i heq
      exact absurd (List.cons.inj heq).1 hdot
    · rfl
  | cons d es =>
    cases es with
    | nil =>
      simp only [List.cons_append, List.nil_append]
      split
      · rename_i heq
        obtain ⟨rfl, hes⟩ := List.cons.inj heq
        obtain ⟨rfl, rfl⟩ := List.cons.inj hes
        rw [if_neg (by simp [hdigit])]
      · rfl
    | cons e es =>
      by_cases hd : d = '.'
      · subst hd
        simp only [List.cons_append]
        split
        · rw [← List.cons_append, takeWhile_append_cons hdigit, dropWhile_append_cons hdigit]
        · rfl
      · simp [hd]

omit hw in
theorem readString_append {cs : List Char}
    (h : (readString cs).1.role ≠ .fault .unterminatedString) :
    readString (cs ++ w :: ds) = ((readString cs).1, (readString cs).2 ++ w :: ds) := by
  have hcs : cs.dropWhile (· ≠ '"') ≠ [] := by
    intro hcs
    rw [readString, hcs] at h
    exact h rfl
  unfold readString
  rw [takeWhile_append_of_ne_nil hcs, dropWhile_append_of_ne_nil hcs]
  cases hrest : cs.dropWhile (· ≠ '"') with
  | nil => exact absurd hrest hcs
  | cons quote rest => rfl

omit hw in
theorem readSingle_append (c : Char) (cs : List Char) :
    readSingle c (cs ++ w :: ds) = ((readSingle c cs).1, (readSingle c cs).2 ++ w :: ds) := by
  unfold readSingle
  split
  · rfl
  · split <;> rfl

theorem readSymbol_append (c : Char) (cs : List Char) :
    readSymbol c (cs ++ w :: ds) = ((readSymbol c cs).1, (readSymbol c cs).2 ++ w :: ds) := by
  cases cs with
  | nil =>
    simp only [List.nil_append, readSymbol, joined?_of_isSpace hw]
    exact readSingle_append ds c []
  | cons d cs =>
    simp only [List.cons_append, readSymbol]
    split
    · rfl
    · exact readSingle_append ds c (d :: cs)

theorem readSlash_append {cs : List Char} (h : (readSlash cs).1.endsAt w) :
    readSlash (cs ++ w :: ds) = ((readSlash cs).1, (readSlash cs).2 ++ w :: ds) := by
  have hsymbol : ∀ cs : List Char, readSymbol '/' (cs ++ w :: ds) =
      ((readSymbol '/' cs).1, (readSymbol '/' cs).2 ++ w :: ds) := readSymbol_append hw ds '/'
  cases cs with
  | nil =>
    have hstar : w ≠ '*' := by
      rintro rfl
      exact absurd hw (by decide)
    have hslash : w ≠ '/' := by
      rintro rfl
      exact absurd hw (by decide)
    rw [List.nil_append, readSlash, readSlash]
    · exact hsymbol []
    all_goals simp [hstar, hslash]
  | cons c cs =>
    by_cases hslash : c = '/'
    · subst hslash
      have hline : w = '\n' := h
      simp only [List.cons_append, readSlash]
      rw [takeWhile_append_cons (p := (· ≠ '\n')) (by simp [hline]),
        dropWhile_append_cons (p := (· ≠ '\n')) (by simp [hline])]
    · by_cases hstar : c = '*'
      · subst hstar
        have hcloses : closes 0 (blockComment 0 cs).1 = true := h
        rw [closes_blockComment] at hcloses
        simp only [List.cons_append, readSlash, blockComment_append_of_closes hcloses]
      · rw [List.cons_append, readSlash, readSlash]
        · exact hsymbol (c :: cs)
        all_goals simp [hslash, hstar]

/-- A piece is read in the same way before a blank character that does not belong to it. -/
theorem read_append {c : Char} {cs : List Char} (h : (read c cs).1.endsAt w) :
    read c (cs ++ w :: ds) = ((read c cs).1, (read c cs).2 ++ w :: ds) := by
  unfold read at h ⊢
  split
  · rfl
  · rename_i hspace
    rw [if_neg hspace] at h
    split
    · exact readName_append hw ds c cs
    · rename_i hname
      rw [if_neg hname] at h
      split
      · exact readNumber_append hw ds c cs
      · rename_i hdigit
        rw [if_neg hdigit] at h
        split
        · rename_i hquote
          rw [if_pos hquote] at h
          refine readString_append ds ?_
          intro hrole
          rw [endsAt, hrole] at h
          exact h
        · rename_i hquote
          rw [if_neg hquote] at h
          split
          · rename_i hslash
            rw [if_pos hslash] at h
            exact readSlash_append hw ds h
          · exact readSymbol_append hw ds c cs

end

/-! ## No word stands for the end -/

theorem ofWord_ne_endOfInput (word : String) : Kind.ofWord word ≠ .endOfInput := by
  have hall : ∀ entry ∈ Kind.keywords, entry.2 ≠ .endOfInput := by decide
  rcases Kind.ofWord_keywords word with hmem | ⟨hkind, -⟩
  · exact hall _ hmem
  · rw [hkind]
    exact nofun

theorem symbol?_ne_endOfInput {c : Char} {kind : Kind} (h : symbol? c = some kind) :
    kind ≠ .endOfInput := by
  unfold symbol? at h
  split at h <;> simp_all <;> subst h <;> exact nofun

theorem joined?_ne_endOfInput {c d : Char} {kind : Kind} (h : joined? c d = some kind) :
    kind ≠ .endOfInput := by
  unfold joined? at h
  split at h <;> simp_all <;> subst h <;> exact nofun

/-- The role is no word that stands for the end of a text. -/
def Role.isInside : Role → Prop
  | .word kind _ => kind ≠ .endOfInput
  | _ => True

theorem isInside_readNumber (c : Char) (cs : List Char) : (readNumber c cs).1.role.isInside := by
  have hint : ∀ digits, (intRole digits).isInside := by
    intro digits
    unfold intRole
    split
    · exact (by decide : Kind.int ≠ .endOfInput)
    · trivial
  unfold readNumber
  split
  · split
    · exact (by decide : Kind.float ≠ .endOfInput)
    · exact hint _
  · exact hint _

theorem isInside_readString (cs : List Char) : (readString cs).1.role.isInside := by
  unfold readString
  split
  · trivial
  · exact (by decide : Kind.string ≠ .endOfInput)

theorem isInside_readSingle (c : Char) (cs : List Char) : (readSingle c cs).1.role.isInside := by
  unfold readSingle
  split
  · rename_i h
    exact symbol?_ne_endOfInput h
  · split <;> trivial

theorem isInside_readSymbol (c : Char) (cs : List Char) : (readSymbol c cs).1.role.isInside := by
  unfold readSymbol
  split
  · exact isInside_readSingle c []
  · split
    · rename_i h
      exact joined?_ne_endOfInput h
    · exact isInside_readSingle c _

theorem isInside_readSlash (cs : List Char) : (readSlash cs).1.role.isInside := by
  unfold readSlash
  split
  · trivial
  · trivial
  · exact isInside_readSymbol '/' _

/-- No word that is read stands for the end of the text. -/
theorem isInside_read (c : Char) (cs : List Char) : (read c cs).1.role.isInside := by
  unfold read
  split
  · trivial
  · split
    · exact ofWord_ne_endOfInput _
    · split
      · exact isInside_readNumber c cs
      · split
        · exact isInside_readString cs
        · split
          · exact isInside_readSlash cs
          · exact isInside_readSymbol c cs

end Piece

theorem isInside_pieces {cs : List Char} {piece : Piece} (h : piece ∈ pieces cs) :
    piece.role.isInside := by
  fun_induction pieces cs with
  | case1 => cases h
  | case2 c cs r ih =>
    rcases List.mem_cons.1 h with rfl | h
    · exact Piece.isInside_read c cs
    · exact ih h

/-! ## The pieces of two texts -/

/-- Where no piece of the first text goes on behind the blank character, the pieces of both texts
follow each other. -/
theorem pieces_append {w : Char} (hw : Piece.isSpace w = true) {cs : List Char}
    (h : ∀ piece ∈ pieces cs, piece.endsAt w) (ds : List Char) :
    pieces (cs ++ w :: ds) = pieces cs ++ ⟨.blank, [w]⟩ :: pieces ds := by
  fun_induction pieces cs with
  | case1 =>
    rw [List.nil_append, pieces, Piece.read, if_pos hw]
    rfl
  | case2 c cs r ih =>
    have hread := Piece.read_append hw ds (h r.1 (List.mem_cons_self ..))
    rw [List.cons_append, pieces, hread, ih fun piece hp => h piece (List.mem_cons_of_mem _ hp)]
    rfl

/-! ## The tokens of two texts -/

namespace Scan

/-- The tokens of pieces that follow each other from the place `p` on. -/
def words (p : Position) : List Piece → List Token
  | [] => []
  | piece :: rest =>
    let q := p.after piece.text
    (piece.token? p q).toList ++ words q rest

/-- The faults of pieces that follow each other from the place `p` on. -/
def faults (p : Position) : List Piece → List Diagnostic
  | [] => []
  | piece :: rest =>
    let q := p.after piece.text
    (piece.diagnostic? p q).toList ++ faults q rest

theorem diagnostics_ofPieces (p : Position) (ps : List Piece) :
    (ofPieces p ps).diagnostics = faults p ps := by
  induction ps generalizing p with
  | nil => rfl
  | cons piece ps ih => rw [ofPieces, faults, ← ih]

theorem tokens_ofPieces (p : Position) (ps : List Piece) :
    ∃ line offset, (ofPieces p ps).tokens = words p ps ++ [.ending line offset] := by
  induction ps generalizing p with
  | nil => exact ⟨_, _, rfl⟩
  | cons piece ps ih =>
    obtain ⟨line, offset, h⟩ := ih (p.after piece.text)
    exact ⟨line, offset, by rw [ofPieces, words, List.append_assoc, ← h]⟩

theorem words_append (p : Position) (ps qs : List Piece) :
    words p (ps ++ qs) = words p ps ++ words (p.after (ps.flatMap Piece.text)) qs := by
  induction ps generalizing p with
  | nil => rfl
  | cons piece ps ih =>
    rw [List.cons_append, words, ih, words, List.flatMap_cons, Position.after_append,
      List.append_assoc]

theorem kind_of_mem_words {p : Position} {ps : List Piece}
    (h : ∀ piece ∈ ps, piece.role.isInside) {t : Token} (ht : t ∈ words p ps) :
    t.kind ≠ .endOfInput := by
  induction ps generalizing p with
  | nil => cases ht
  | cons piece ps ih =>
    rcases List.mem_append.1 ht with ht | ht
    · have hpiece := h piece (List.mem_cons_self ..)
      unfold Piece.token? at ht
      split at ht
      · rename_i kind literal hrole
        rw [hrole] at hpiece
        simp only [Option.toList_some, List.mem_singleton] at ht
        rw [ht]
        exact hpiece
      · cases ht
    · exact ih (fun piece hp => h piece (List.mem_cons_of_mem _ hp)) ht

theorem words_move (σ : Shift) (p : Position) (ps : List Piece) :
    words (p.move σ) ps = (words p ps).map (Token.move σ) := by
  induction ps generalizing p with
  | nil => rfl
  | cons piece ps ih =>
    have hhead : piece.token? (p.move σ) ((p.after piece.text).move σ) =
        (piece.token? p (p.after piece.text)).map (Token.move σ) := by
      unfold Piece.token?
      split <;> rfl
    rw [words, Position.after_move, ih, hhead, words, List.map_append]
    cases piece.token? p (p.after piece.text) <;> rfl

/-- Where faults are does not matter to whether there are any. -/
theorem faults_eq_nil_iff (p : Position) (ps : List Piece) :
    faults p ps = [] ↔ ∀ piece ∈ ps, ∀ f, piece.role ≠ .fault f := by
  induction ps generalizing p with
  | nil => simp [faults]
  | cons piece ps ih =>
    simp only [faults, List.append_eq_nil_iff, ih, List.forall_mem_cons, and_congr_left_iff]
    intro _
    unfold Piece.diagnostic?
    split <;> simp_all

end Scan

section

variable (source : String)

theorem diagnostics_scan :
    (scan source).diagnostics = Scan.faults .origin (pieces source.toList) :=
  Scan.diagnostics_ofPieces _ _

/-- The tokens before the end are the words of the text. -/
theorem beforeEnd_tokens_scan :
    beforeEnd (scan source).tokens = Scan.words .origin (pieces source.toList) := by
  obtain ⟨line, offset, h⟩ := Scan.tokens_ofPieces .origin (pieces source.toList)
  have hinside : ∀ t ∈ Scan.words .origin (pieces source.toList),
      decide (t.kind ≠ .endOfInput) = true := by
    intro t ht
    exact decide_eq_true (Scan.kind_of_mem_words (fun _ => isInside_pieces) ht)
  rw [scan, h, beforeEnd, List.takeWhile_append_of_pos hinside]
  exact List.append_nil _

end

end Scripting
