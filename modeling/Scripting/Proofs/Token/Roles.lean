import Scripting.Proofs.Token.Words

/-!
# The roles of pieces

* `IsWord.of_isNameStart`, `IsWord.of_isDigit`, `IsWord.of_quote`, `IsWord.of_else` : what a word is
  that begins with a letter, a digit, a quote, or anything else;
* `Piece.fits_readName` and the like : each way of reading a piece gives it a role that fits;
* `Piece.roleOf_word` : a word by itself is read as that word, so it has one kind and one literal
  (`Word.unique`);
* `fits_pieces` : every piece of a text has a role that fits what is behind it.
-/

namespace Scripting

set_option autoImplicit false

open Piece

/-! ## Words by their first characters -/

theorem isNameStart_of_isDigit {c : Char} (h : c.isDigit = true) : isNameStart c = false := by
  simp only [isNameStart, Bool.or_eq_false_iff, decide_eq_false_iff_not]
  constructor
  · grind [Char.isDigit, Char.isAlpha, Char.isUpper, Char.isLower]
  · rintro rfl
    exact absurd h (by decide)

/-- A character with which symbols begin, and no other words. -/
structure IsSymbolic (c : Char) : Prop where
  name : isNameStart c = false
  digit : c.isDigit = false
  quote : c ≠ '"'

/-- Symbols have one character or two. -/
theorem symbol_shape {text : List Char} {kind : Kind}
    (h : (String.ofList text, kind) ∈ Kind.symbols) :
    ∃ c cs, text = c :: cs ∧ IsSymbolic c ∧
      (cs = [] ∧ symbol? c = some kind ∨ ∃ d, cs = [d] ∧ joined? c d = some kind) := by
  have hall : ∀ entry ∈ Kind.symbols, ∃ c cs, entry.1.toList = c :: cs ∧ IsSymbolic c ∧
      (cs = [] ∧ symbol? c = some entry.2 ∨ ∃ d, cs = [d] ∧ joined? c d = some entry.2) := by
    simp only [Kind.symbols, List.forall_mem_cons]
    refine ⟨?_, ?_, ?_, ?_, ?_, ?_, ?_, ?_, ?_, ?_, ?_, ?_, ?_, ?_, ?_, ?_, ?_, ?_, ?_, ?_, ?_, ?_,
      ?_, ?_, ?_, List.forall_mem_nil _⟩ <;>
    first
    | exact ⟨_, _, rfl, by constructor <;> decide, .inl ⟨rfl, rfl⟩⟩
    | exact ⟨_, _, rfl, by constructor <;> decide, .inr ⟨_, rfl, rfl⟩⟩
  obtain ⟨c, cs, htext, hrest⟩ := hall _ h
  rw [String.toList_ofList] at htext
  exact ⟨c, cs, htext, hrest⟩

theorem isDigit_of_digits_append {c : Char} {cs whole rest : List Char} (hwhole : IsDigits whole)
    (h : c :: cs = whole ++ rest) : c.isDigit = true := by
  obtain ⟨hne, hall⟩ := hwhole
  obtain ⟨d, ds, rfl⟩ := List.exists_cons_of_ne_nil hne
  rw [List.cons_append] at h
  rw [(List.cons.inj h).1]
  exact hall d List.mem_cons_self

section

variable {c : Char} {cs : List Char} (h : IsWord (c :: cs))

include h

/-- A word that begins like a name is one. -/
theorem IsWord.of_isNameStart (hc : isNameStart c = true) : ∀ d ∈ cs, isNamePart d = true := by
  have hdigit : c.isDigit = false := by
    rw [← Bool.not_eq_true]
    exact fun hdigit => by rw [isNameStart_of_isDigit hdigit] at hc; cases hc
  rcases h.shape with ⟨c', cs', heq, -, hcs⟩ | hdigits | ⟨whole, fraction, heq, hwhole, -⟩ |
    ⟨content, heq, -⟩ | ⟨kind, hsymbol⟩
  · cases heq
    exact hcs
  · rw [hdigits.2 c List.mem_cons_self] at hdigit
    cases hdigit
  · rw [isDigit_of_digits_append hwhole heq] at hdigit
    cases hdigit
  · cases heq
    exact absurd hc (by decide)
  · obtain ⟨c', cs', heq, hsymbolic, -⟩ := symbol_shape hsymbol
    cases heq
    rw [hsymbolic.name] at hc
    cases hc

/-- A word that begins with a digit is a number. -/
theorem IsWord.of_isDigit (hc : c.isDigit = true) : IsDigits (c :: cs) ∨
    ∃ whole fraction, c :: cs = whole ++ '.' :: fraction ∧ IsDigits whole ∧ IsDigits fraction := by
  rcases h.shape with ⟨c', cs', heq, hstart, -⟩ | hdigits | hfloat | ⟨content, heq, -⟩ |
    ⟨kind, hsymbol⟩
  · cases heq
    rw [isNameStart_of_isDigit hc] at hstart
    cases hstart
  · exact .inl hdigits
  · exact .inr hfloat
  · cases heq
    exact absurd hc (by decide)
  · obtain ⟨c', cs', heq, hsymbolic, -⟩ := symbol_shape hsymbol
    cases heq
    rw [hsymbolic.digit] at hc
    cases hc

/-- A word that begins with a quote is a string. -/
theorem IsWord.of_quote (hc : c = '"') : ∃ content, cs = content ++ ['"'] ∧ '"' ∉ content := by
  subst hc
  rcases h.shape with ⟨c', cs', heq, hstart, -⟩ | hdigits | ⟨whole, fraction, heq, hwhole, -⟩ |
    ⟨content, heq, hcontent⟩ | ⟨kind, hsymbol⟩
  · cases heq
    exact absurd hstart (by decide)
  · exact absurd (hdigits.2 _ List.mem_cons_self) (by decide)
  · exact absurd (isDigit_of_digits_append hwhole heq) (by decide)
  · exact ⟨content, (List.cons.inj heq).2, hcontent⟩
  · obtain ⟨c', cs', heq, hsymbolic, -⟩ := symbol_shape hsymbol
    cases heq
    exact absurd rfl hsymbolic.quote

/-- A word that begins with another character is a symbol. -/
theorem IsWord.of_else (hname : isNameStart c = false) (hdigit : c.isDigit = false)
    (hquote : c ≠ '"') : cs = [] ∧ (∃ kind, symbol? c = some kind) ∨
      ∃ d kind, cs = [d] ∧ joined? c d = some kind := by
  rcases h.shape with ⟨c', cs', heq, hstart, -⟩ | hdigits | ⟨whole, fraction, heq, hwhole, -⟩ |
    ⟨content, heq, hcontent⟩ | ⟨kind, hsymbol⟩
  · cases heq
    rw [hname] at hstart
    cases hstart
  · rw [hdigits.2 c List.mem_cons_self] at hdigit
    cases hdigit
  · rw [isDigit_of_digits_append hwhole heq] at hdigit
    cases hdigit
  · cases heq
    exact absurd rfl hquote
  · obtain ⟨c', cs', heq, -, ⟨rfl, hkind⟩ | ⟨d, rfl, hkind⟩⟩ := symbol_shape hsymbol
    · cases heq
      exact .inl ⟨rfl, kind, hkind⟩
    · cases heq
      exact .inr ⟨d, kind, rfl, hkind⟩

end

/-! ## Names -/

theorem length_le_takeWhile {α : Type} {p : α → Bool} {as bs : List α} (h : as <+: bs)
    (hp : ∀ a ∈ as, p a = true) : as.length ≤ (bs.takeWhile p).length := by
  obtain ⟨cs, rfl⟩ := h
  rw [List.takeWhile_append_of_pos hp, List.length_append]
  exact Nat.le_add_right ..

/-- The kind of a word of letters is that of the keyword, if it is one. -/
theorem word_ofWord {c : Char} {cs : List Char} (hc : isNameStart c = true)
    (hcs : ∀ d ∈ cs, isNamePart d = true) :
    Word (c :: cs) (.ofWord (String.ofList (c :: cs))) none := by
  rcases Kind.ofWord_keywords (String.ofList (c :: cs)) with hmem | ⟨hkind, hname⟩
  · exact .keyword hmem
  · rw [hkind]
    exact .name hc hcs hname

namespace Piece

theorem fits_readName {c : Char} (hc : isNameStart c = true) (cs : List Char) :
    (readName c cs).1.role.Fits (readName c cs).1.text (readName c cs).2 := by
  refine ⟨word_ofWord hc fun d hd => List.mem_takeWhile_imp hd, ?_⟩
  show Longest (c :: cs.takeWhile isNamePart) (cs.dropWhile isNamePart)
  rw [Longest, List.cons_append, List.takeWhile_append_dropWhile]
  rintro (_ | ⟨c', ds⟩) hword hprefix
  · exact Nat.zero_le _
  · obtain ⟨rfl, hds⟩ := List.cons_prefix_cons.1 hprefix
    exact Nat.succ_le_succ (length_le_takeWhile hds (hword.of_isNameStart hc))

/-! ## Numbers -/

theorem digitsValue_eq (digits : List Char) : digitsValue digits = decimal digits := by
  have hfold : ∀ n : Nat, digits.foldl (fun n c => 10 * n + (c.toNat - '0'.toNat)) n =
      n * 10 ^ digits.length + decimal digits := by
    induction digits with
    | nil => exact fun n => (Nat.mul_one n).symm
    | cons c cs ih =>
      intro n
      rw [List.foldl_cons, ih, decimal, List.length_cons, Nat.pow_succ]
      ring
  rw [digitsValue, hfold, Nat.zero_mul, Nat.zero_add]

/-- Digits are a word if their number has a literal, and else an invalid number. -/
theorem fits_intRole {digits behind : List Char} (hdigits : IsDigits digits)
    (hlongest : Longest digits behind) : (intRole digits).Fits digits behind := by
  unfold intRole
  rw [digitsValue_eq]
  split
  · rename_i hle
    refine ⟨.int hdigits ?_, hlongest⟩
    exact Int64.toInt_ofNat_of_lt (Nat.lt_succ_of_le hle)
  · rename_i hlt
    refine ⟨hdigits, hlongest, fun n hn => hlt ?_⟩
    have := n.toInt_lt
    rw [hn] at this
    exact Nat.le_of_lt_succ (Int.ofNat_lt.1 this)

/-- The digits in front of a text that begin a word are the same in all words. -/
theorem takeWhile_digits {c : Char} {cs whole fraction : List Char} (hwhole : IsDigits whole)
    (h : whole ++ '.' :: fraction <+: c :: cs) (hc : c.isDigit = true) :
    whole = c :: cs.takeWhile Char.isDigit ∧ '.' :: fraction <+: cs.dropWhile Char.isDigit := by
  obtain ⟨rest, hrest⟩ := h
  rw [List.append_assoc, List.cons_append] at hrest
  have htake := congrArg (List.takeWhile Char.isDigit) hrest
  have hdrop := congrArg (List.dropWhile Char.isDigit) hrest
  rw [List.takeWhile_append_of_pos hwhole.2, List.takeWhile_cons_of_neg (by decide),
    List.takeWhile_cons_of_pos hc, List.append_nil] at htake
  rw [List.dropWhile_append_of_pos hwhole.2, List.dropWhile_cons_of_neg (by decide),
    List.dropWhile_cons_of_pos hc] at hdrop
  exact ⟨htake, rest, hdrop⟩

/-- The digits in front of a text are the longest word, unless a dot and a digit follow. -/
theorem longest_digits {c : Char} {cs : List Char} (hc : c.isDigit = true)
    (hdot : ∀ d rest, cs.dropWhile Char.isDigit = '.' :: d :: rest → d.isDigit = false) :
    Longest (c :: cs.takeWhile Char.isDigit) (cs.dropWhile Char.isDigit) := by
  rw [Longest, List.cons_append, List.takeWhile_append_dropWhile]
  rintro (_ | ⟨c', ds⟩) hword hprefix
  · exact Nat.zero_le _
  · obtain ⟨rfl, hds⟩ := List.cons_prefix_cons.1 hprefix
    rcases hword.of_isDigit hc with hdigits | ⟨whole, fraction, heq, hwhole, hfraction⟩
    · exact Nat.succ_le_succ
        (length_le_takeWhile hds fun d hd => hdigits.2 d (List.mem_cons_of_mem _ hd))
    · rw [heq] at hprefix
      obtain ⟨-, rest, hrest⟩ := takeWhile_digits hwhole hprefix hc
      obtain ⟨d, ds', rfl⟩ := List.exists_cons_of_ne_nil hfraction.1
      have hd := hfraction.2 d List.mem_cons_self
      rw [hdot d _ hrest.symm] at hd
      cases hd

/-- Two runs of digits with a dot between them are the longest word. -/
theorem longest_float {c d : Char} {cs rest : List Char} (hc : c.isDigit = true)
    (hcs : cs.dropWhile Char.isDigit = '.' :: d :: rest) :
    Longest (c :: cs.takeWhile Char.isDigit ++ '.' :: (d :: rest).takeWhile Char.isDigit)
      ((d :: rest).dropWhile Char.isDigit) := by
  have hsplit : c :: cs.takeWhile Char.isDigit ++ '.' :: (d :: rest).takeWhile Char.isDigit ++
      (d :: rest).dropWhile Char.isDigit = c :: cs := by
    rw [List.append_assoc, List.cons_append, List.cons_append, List.takeWhile_append_dropWhile,
      ← hcs, List.takeWhile_append_dropWhile]
  rw [Longest, hsplit]
  rintro (_ | ⟨c', ds⟩) hword hprefix
  · exact Nat.zero_le _
  · obtain ⟨rfl, hds⟩ := List.cons_prefix_cons.1 hprefix
    rcases hword.of_isDigit hc with hdigits | ⟨whole, fraction, heq, hwhole, hfraction⟩
    · have := length_le_takeWhile hds fun d hd => hdigits.2 d (List.mem_cons_of_mem _ hd)
      simp only [List.length_append, List.length_cons]
      omega
    · rw [heq] at hprefix ⊢
      obtain ⟨rfl, hrest⟩ := takeWhile_digits hwhole hprefix hc
      rw [hcs] at hrest
      have := length_le_takeWhile (List.cons_prefix_cons.1 hrest).2 hfraction.2
      simp only [List.length_append, List.length_cons]
      omega

theorem isDigits_takeWhile {c : Char} (hc : c.isDigit = true) (cs : List Char) :
    IsDigits (c :: cs.takeWhile Char.isDigit) :=
  ⟨List.cons_ne_nil _ _, List.forall_mem_cons.2 ⟨hc, fun _ hd => List.mem_takeWhile_imp hd⟩⟩

theorem fits_readNumber {c : Char} (hc : c.isDigit = true) (cs : List Char) :
    (readNumber c cs).1.role.Fits (readNumber c cs).1.text (readNumber c cs).2 := by
  have hwhole := isDigits_takeWhile hc cs
  unfold readNumber
  split
  · rename_i d rest hcs
    split
    · rename_i hd
      have hfraction : IsDigits ((d :: rest).takeWhile Char.isDigit) := by
        rw [List.takeWhile_cons_of_pos hd]
        exact isDigits_takeWhile hd rest
      refine ⟨?_, longest_float hc hcs⟩
      show Word _ _ (some (.float _))
      rw [digitsValue_eq]
      exact .float hwhole hfraction
    · rename_i hd
      have hdot : ∀ d' rest', cs.dropWhile Char.isDigit = '.' :: d' :: rest' →
          d'.isDigit = false := by
        intro d' rest' h
        rw [hcs] at h
        cases h
        exact Bool.eq_false_iff.2 hd
      have hlongest := longest_digits hc hdot
      rw [hcs] at hlongest
      exact fits_intRole hwhole hlongest
  · rename_i hne
    refine fits_intRole hwhole (longest_digits hc fun d rest h => ?_)
    exact absurd h (hne d rest)

/-! ## Strings -/

theorem not_quote_mem_takeWhile (cs : List Char) : '"' ∉ cs.takeWhile (· ≠ '"') :=
  fun h => absurd (List.mem_takeWhile_imp h) (by decide)

theorem fits_readString (cs : List Char) :
    (readString cs).1.role.Fits (readString cs).1.text (readString cs).2 := by
  have hcontent := not_quote_mem_takeWhile cs
  unfold readString
  split
  · exact ⟨_, rfl, hcontent, rfl⟩
  · rename_i quote rest hcs
    have hquote : quote = '"' := by
      have := List.head?_dropWhile_not (· ≠ '"') cs
      rw [hcs] at this
      simpa using this
    subst hquote
    refine ⟨.string hcontent, ?_⟩
    show Longest ('"' :: cs.takeWhile (· ≠ '"') ++ ['"']) rest
    have hsplit : '"' :: cs.takeWhile (· ≠ '"') ++ ['"'] ++ rest = '"' :: cs := by
      rw [List.append_assoc, List.cons_append, List.singleton_append, ← hcs,
        List.takeWhile_append_dropWhile]
    rw [Longest, hsplit]
    rintro (_ | ⟨c', ds⟩) hword hprefix
    · exact Nat.zero_le _
    · obtain ⟨rfl, hds⟩ := List.cons_prefix_cons.1 hprefix
      obtain ⟨content, rfl, hquotes⟩ := hword.of_quote rfl
      have := length_le_takeWhile ((List.prefix_append _ _).trans hds) (p := (· ≠ '"'))
        fun d hd => decide_eq_true fun heq => hquotes (heq ▸ hd)
      simp only [List.length_append, List.length_cons, List.length_nil]
      omega

/-! ## Symbols -/

theorem mem_symbols_of_symbol? {c : Char} {kind : Kind} (h : symbol? c = some kind) :
    (String.ofList [c], kind) ∈ Kind.symbols := by
  unfold symbol? at h
  split at h <;> cases h <;> decide

theorem mem_symbols_of_joined? {c d : Char} {kind : Kind} (h : joined? c d = some kind) :
    (String.ofList [c, d], kind) ∈ Kind.symbols := by
  unfold joined? at h
  split at h <;> cases h <;> decide

/-- A symbol of two characters begins with one of one character, or is two bars or ampersands. -/
theorem symbol?_of_joined? {c d : Char} {kind : Kind} (h : joined? c d = some kind) :
    (∃ kind', symbol? c = some kind') ∨ (c = '|' ∨ c = '&') ∧ d = c := by
  unfold joined? at h
  split at h <;> cases h <;> first | exact .inl ⟨_, rfl⟩ | exact .inr (by decide)

section

variable {c : Char} (hname : isNameStart c = false) (hdigit : c.isDigit = false) (hquote : c ≠ '"')

include hname hdigit hquote

/-- A character with which no symbol of two begins here. -/
theorem fits_readSingle (hspace : isSpace c = false) {cs : List Char}
    (hjoined : ∀ d, cs.head? = some d → joined? c d = none) :
    (readSingle c cs).1.role.Fits (readSingle c cs).1.text (readSingle c cs).2 := by
  unfold readSingle
  split
  · rename_i kind hkind
    refine ⟨.symbol (mem_symbols_of_symbol? hkind), ?_⟩
    rintro (_ | ⟨c', ds⟩) hword hprefix
    · exact Nat.zero_le _
    · obtain ⟨rfl, hds⟩ := List.cons_prefix_cons.1 hprefix
      rcases hword.of_else hname hdigit hquote with ⟨rfl, -⟩ | ⟨d, kind', rfl, hkind'⟩
      · exact Nat.le_refl _
      · obtain ⟨rest, rfl⟩ := hds
        rw [hjoined d rfl] at hkind'
        cases hkind'
  · rename_i hnone
    split
    · rename_i hbar
      refine ⟨c, rfl, hbar, fun hhead => ?_⟩
      have := hjoined c hhead
      rcases hbar with rfl | rfl <;> cases this
    · rename_i hbar
      refine ⟨c, rfl, hspace, fun ds hword => ?_⟩
      rcases hword.of_else hname hdigit hquote with ⟨-, kind, hkind⟩ | ⟨d, kind, -, hkind⟩
      · rw [hnone] at hkind
        cases hkind
      · rcases symbol?_of_joined? hkind with ⟨kind', hkind'⟩ | ⟨hc, -⟩
        · rw [hnone] at hkind'
          cases hkind'
        · exact hbar hc

theorem fits_readSymbol (hspace : isSpace c = false) (cs : List Char) :
    (readSymbol c cs).1.role.Fits (readSymbol c cs).1.text (readSymbol c cs).2 := by
  cases cs with
  | nil => exact fits_readSingle hname hdigit hquote hspace nofun
  | cons d cs =>
    rw [readSymbol]
    split
    · rename_i kind hkind
      refine ⟨.symbol (mem_symbols_of_joined? hkind), ?_⟩
      rintro (_ | ⟨c', ds⟩) hword hprefix
      · exact Nat.zero_le _
      · obtain ⟨rfl, -⟩ := List.cons_prefix_cons.1 hprefix
        rcases hword.of_else hname hdigit hquote with ⟨rfl, -⟩ | ⟨e, kind', rfl, -⟩
        · exact Nat.le_succ _
        · exact Nat.le_refl _
    · rename_i hnone
      refine fits_readSingle hname hdigit hquote hspace fun e he => ?_
      cases he
      exact hnone

end

/-! ## Comments -/

/-- A comment that is closed closes one of those that are open. -/
theorem closes_append {cs : List Char} (h : Comment cs) (depth : Nat) (ds : List Char) :
    closes depth (cs ++ ds) = match depth with
      | 0 => true
      | depth + 1 => closes depth ds := by
  induction h generalizing depth ds with
  | close => cases depth <;> rfl
  | @inner cs es _ _ hinner hrest =>
    show closes depth ('/' :: '*' :: (cs ++ es ++ ds)) = _
    rw [closes, List.append_assoc, hinner]
    exact hrest depth ds
  | @char c cs hmark hcs ih =>
    obtain ⟨d, es, rfl⟩ := List.exists_cons_of_ne_nil hcs.ne_nil
    have hmark' : ¬ isMark c (d :: es ++ ds) := hmark
    rw [List.cons_append, closes_cons hmark', ih]

/-- What is read of a comment that comes to its end are comments that close all open ones. -/
theorem blockComment_of_closes {depth : Nat} {cs : List Char} (h : closes depth cs = true) :
    ∃ (rest : List Char) (outer : List (List Char)), (blockComment depth cs).1 =
      rest ++ outer.flatten ∧ outer.length = depth ∧ Comment rest ∧ ∀ cs ∈ outer, Comment cs := by
  fun_induction blockComment depth cs with
  | case1 => cases h
  | case2 depth cs r ih =>
    rw [closes] at h
    obtain ⟨inner, outer, htext, hlength, hinner, houter⟩ := ih h
    obtain ⟨rest, outer, rfl⟩ := List.exists_cons_of_length_eq_add_one hlength
    rw [List.forall_mem_cons] at houter
    refine ⟨'/' :: '*' :: inner ++ rest, outer, ?_, Nat.succ.inj hlength, ?_, houter.2⟩
    · rw [htext, List.flatten_cons]
      simp only [List.cons_append, List.append_assoc]
    · exact .inner hinner houter.1
  | case3 => exact ⟨['*', '/'], [], rfl, rfl, .close, List.forall_mem_nil _⟩
  | case4 depth cs r ih =>
    rw [closes] at h
    obtain ⟨rest, outer, htext, hlength, hrest, houter⟩ := ih h
    refine ⟨['*', '/'], rest :: outer, ?_, congrArg Nat.succ hlength, .close, ?_⟩
    · rw [htext, List.flatten_cons]
      rfl
    · exact List.forall_mem_cons.2 ⟨hrest, houter⟩
  | case5 depth c cs hopen hlast hinner r ih =>
    have hmark := not_isMark hopen hlast hinner
    rw [closes_cons hmark] at h
    obtain ⟨rest, outer, htext, hlength, hrest, houter⟩ := ih h
    refine ⟨c :: rest, outer, ?_, hlength, .char ?_ hrest, houter⟩
    · rw [htext]
      rfl
    · obtain ⟨d, ds, rfl⟩ := List.exists_cons_of_ne_nil hrest.ne_nil
      have hhead := head?_blockComment depth cs
      rw [htext] at hhead
      rwa [isMark, ← hhead] at hmark

/-- A comment that does not come to its end takes up all that is left. -/
theorem blockComment_of_not_closes {depth : Nat} {cs : List Char} (h : closes depth cs = false) :
    blockComment depth cs = (cs, []) := by
  fun_induction blockComment depth cs with
  | case1 => rfl
  | case2 depth cs r ih =>
    rw [closes] at h
    simp only [r, ih h]
  | case3 => cases h
  | case4 depth cs r ih =>
    rw [closes] at h
    simp only [r, ih h]
  | case5 depth c cs hopen hlast hinner r ih =>
    rw [closes_cons (not_isMark hopen hlast hinner)] at h
    simp only [r, ih h]

theorem fits_blockComment (cs : List Char) :
    Role.blockComment.Fits ('/' :: '*' :: (blockComment 0 cs).1) (blockComment 0 cs).2 := by
  refine ⟨_, rfl, ?_⟩
  cases h : closes 0 cs with
  | true =>
    obtain ⟨rest, outer, htext, hlength, hrest, -⟩ := blockComment_of_closes h
    rw [List.length_eq_zero_iff.1 hlength, List.flatten_nil, List.append_nil] at htext
    exact .inl (htext ▸ hrest)
  | false =>
    rw [blockComment_of_not_closes h]
    refine .inr ⟨rfl, fun ds hds hprefix => ?_⟩
    obtain ⟨rest, rfl⟩ := hprefix
    rw [closes_append hds] at h
    cases h

theorem fits_lineComment (cs : List Char) :
    Role.lineComment.Fits ('/' :: '/' :: cs.takeWhile (· ≠ '\n')) (cs.dropWhile (· ≠ '\n')) := by
  refine ⟨_, rfl, fun h => absurd (List.mem_takeWhile_imp h) (by decide), ?_⟩
  have := List.head?_dropWhile_not (· ≠ '\n') cs
  cases hdrop : cs.dropWhile (· ≠ '\n') with
  | nil => exact .inl rfl
  | cons c rest =>
    rw [hdrop] at this
    exact .inr (congrArg some (by simpa using this))

theorem fits_readSlash (cs : List Char) :
    (readSlash cs).1.role.Fits (readSlash cs).1.text (readSlash cs).2 := by
  unfold readSlash
  split
  · exact fits_lineComment _
  · exact fits_blockComment _
  · exact fits_readSymbol (by decide) (by decide) (by decide) (by decide) _

/-! ## Pieces -/

/-- What is read at the front of a text has a role that fits. -/
theorem fits_read (c : Char) (cs : List Char) :
    (read c cs).1.role.Fits (read c cs).1.text (read c cs).2 := by
  unfold read
  split
  · rename_i hspace
    exact ⟨c, rfl, hspace⟩
  · rename_i hspace
    split
    · rename_i hname
      exact fits_readName hname cs
    · rename_i hname
      split
      · rename_i hdigit
        exact fits_readNumber hdigit cs
      · rename_i hdigit
        split
        · exact fits_readString cs
        · rename_i hquote
          split
          · exact fits_readSlash cs
          · simp only [Bool.not_eq_true] at hspace hname hdigit
            exact fits_readSymbol hname hdigit hquote hspace cs

end Piece

/-! ## Words by themselves -/

namespace Piece

theorem isSpace_of_isNameStart {c : Char} (h : isNameStart c = true) : isSpace c = false := by
  rw [← Bool.not_eq_true]
  intro hspace
  rcases eq_of_isSpace hspace with rfl | rfl | rfl | rfl <;> exact absurd h (by decide)

theorem isSpace_of_isDigit {c : Char} (h : c.isDigit = true) : isSpace c = false := by
  rw [← Bool.not_eq_true]
  intro hspace
  rw [isDigit_of_isSpace hspace] at h
  cases h

theorem read_of_isNameStart {c : Char} (hc : isNameStart c = true) (cs : List Char) :
    read c cs = readName c cs := by
  rw [read, isSpace_of_isNameStart hc, if_neg Bool.false_ne_true, if_pos hc]

theorem read_of_isDigit {c : Char} (hc : c.isDigit = true) (cs : List Char) :
    read c cs = readNumber c cs := by
  rw [read, isSpace_of_isDigit hc, if_neg Bool.false_ne_true, isNameStart_of_isDigit hc,
    if_neg Bool.false_ne_true, if_pos hc]

/-- The role of a text that is read as a whole. -/
def roleOf : List Char → Role
  | [] => .blank
  | c :: cs => (read c cs).1.role

theorem roleOf_digits {c : Char} {cs : List Char} (h : IsDigits (c :: cs)) :
    roleOf (c :: cs) = intRole (c :: cs) := by
  have hall := List.forall_mem_cons.1 h.2
  have htake : cs.takeWhile Char.isDigit = cs := List.takeWhile_eq_self_iff.2 hall.2
  have hdrop : cs.dropWhile Char.isDigit = [] := List.dropWhile_eq_nil_iff.2 hall.2
  rw [roleOf, read_of_isDigit hall.1, readNumber, htake, hdrop]

theorem roleOf_float {whole fraction : List Char} (hwhole : IsDigits whole)
    (hfraction : IsDigits fraction) :
    roleOf (whole ++ '.' :: fraction) = floatRole whole fraction := by
  obtain ⟨c, cs, rfl⟩ := List.exists_cons_of_ne_nil hwhole.1
  obtain ⟨d, ds, rfl⟩ := List.exists_cons_of_ne_nil hfraction.1
  have hcs := List.forall_mem_cons.1 hwhole.2
  have hd := hfraction.2 d List.mem_cons_self
  have htake : (cs ++ '.' :: d :: ds).takeWhile Char.isDigit = cs := by
    rw [takeWhile_append_cons (by decide), List.takeWhile_eq_self_iff.2 hcs.2]
  have hdrop : (cs ++ '.' :: d :: ds).dropWhile Char.isDigit = '.' :: d :: ds := by
    rw [dropWhile_append_cons (by decide), List.dropWhile_eq_nil_iff.2 hcs.2, List.nil_append]
  rw [List.cons_append, roleOf, read_of_isDigit hcs.1, readNumber, htake, hdrop]
  simp only [if_pos hd, List.takeWhile_eq_self_iff.2 hfraction.2]

theorem roleOf_string {content : List Char} (h : '"' ∉ content) :
    roleOf ('"' :: content ++ ['"']) = .word .string (some (.string (String.ofList content))) := by
  have hall : ∀ c ∈ content, decide (c ≠ '"') = true :=
    fun c hc => decide_eq_true fun heq => h (heq ▸ hc)
  have htake : (content ++ ['"']).takeWhile (· ≠ '"') = content := by
    rw [takeWhile_append_cons (by decide), List.takeWhile_eq_self_iff.2 hall]
  have hdrop : (content ++ ['"']).dropWhile (· ≠ '"') = ['"'] := by
    rw [dropWhile_append_cons (by decide), List.dropWhile_eq_nil_iff.2 hall, List.nil_append]
  show (readString (content ++ ['"'])).1.role = _
  rw [readString, htake, hdrop]

/-- A word that is read as a whole has its kind and its literal. -/
theorem roleOf_word {text : List Char} {kind : Kind} {literal : Option Literal}
    (h : Word text kind literal) : roleOf text = .word kind literal := by
  cases h with
  | keyword h =>
    have hall : ∀ entry ∈ Kind.keywords, roleOf entry.1.toList = .word entry.2 none := by
      simp only [Kind.keywords, List.forall_mem_cons]
      refine ⟨?_, ?_, ?_, ?_, ?_, ?_, ?_, ?_, ?_, ?_, ?_, ?_, ?_, ?_, List.forall_mem_nil _⟩ <;> rfl
    have hrole := hall _ h
    rwa [String.toList_ofList] at hrole
  | @name c cs hc hcs hname =>
    obtain ⟨hkind, -⟩ := (Kind.ofWord_keywords (String.ofList (c :: cs))).resolve_left (hname _)
    rw [roleOf, read_of_isNameStart hc, readName, List.takeWhile_eq_self_iff.2 hcs, hkind]
  | @int digits n hdigits hn =>
    obtain ⟨c, cs, rfl⟩ := List.exists_cons_of_ne_nil hdigits.1
    have hle : decimal (c :: cs) ≤ maxInt := by
      have := n.toInt_lt
      rw [hn] at this
      exact Nat.le_of_lt_succ (Int.ofNat_lt.1 this)
    have hvalue : Int64.ofNat (decimal (c :: cs)) = n := by
      rw [← Int64.toInt_inj, hn, Int64.toInt_ofNat_of_lt (Nat.lt_succ_of_le hle)]
    rw [roleOf_digits hdigits, intRole, digitsValue_eq, if_pos hle, hvalue]
  | float hwhole hfraction => rw [roleOf_float hwhole hfraction, floatRole, digitsValue_eq]
  | string hcontent => exact roleOf_string hcontent
  | symbol h =>
    have hall : ∀ entry ∈ Kind.symbols, roleOf entry.1.toList = .word entry.2 none := by
      simp only [Kind.symbols, List.forall_mem_cons]
      refine ⟨?_, ?_, ?_, ?_, ?_, ?_, ?_, ?_, ?_, ?_, ?_, ?_, ?_, ?_, ?_, ?_, ?_, ?_, ?_, ?_, ?_,
        ?_, ?_, ?_, ?_, List.forall_mem_nil _⟩ <;> rfl
    have hrole := hall _ h
    rwa [String.toList_ofList] at hrole

end Piece

/-- A word has one kind and one literal. -/
theorem Word.unique {text : List Char} {kind kind' : Kind} {literal literal' : Option Literal}
    (h : Word text kind literal) (h' : Word text kind' literal') :
    kind = kind' ∧ literal = literal' := by
  have heq := (Piece.roleOf_word h).symm.trans (Piece.roleOf_word h')
  exact ⟨(Piece.Role.word.inj heq).1, (Piece.Role.word.inj heq).2⟩

/-! ## The pieces of a text -/

/-- Every piece of a text has a role that fits what is behind it. -/
theorem fits_pieces {cs : List Char} {ps qs : List Piece} {piece : Piece}
    (h : pieces cs = ps ++ piece :: qs) : piece.role.Fits piece.text (qs.flatMap Piece.text) := by
  induction ps generalizing cs with
  | nil =>
    cases cs with
    | nil =>
      rw [pieces] at h
      cases h
    | cons c cs =>
      rw [pieces] at h
      obtain ⟨rfl, rfl⟩ := List.cons.inj h
      rw [flatMap_text_pieces]
      exact Piece.fits_read c cs
  | cons p ps ih =>
    cases cs with
    | nil =>
      rw [pieces] at h
      cases h
    | cons c cs =>
      rw [pieces] at h
      exact ih (List.cons.inj h).2

end Scripting
