import Mathlib
import Scripting.Proofs.Token.Cut
import Scripting.Proofs.Token.Tiles

/-!
# Numbers in a text

* `IsDigits.toDigits`, `decimal_toDigits` : numbers in decimal notation;
* `IsRun` : digits that do not go on are one piece (`pieces_run`);
* `pieces_fraction` : so are two runs of digits with a dot between them;
* `Scan.touching` : what a scan says of the bytes of a span, which comes from the piece that they
  are (`Scan.touching_tile`);
* `NumberAt` : the scanner comes to digits that do not go on;
* `NumberAt.touching_of_le`, `NumberAt.touching_of_lt` : they are an integer, or a fault if their
  number is too large.
-/

namespace Scripting

set_option autoImplicit false

/-! ## Digits -/

/-- Digits are told from what is behind them. -/
theorem takeWhile_append_behind {digits behind : List Char}
    (h : ∀ c ∈ digits, c.isDigit = true) (hbehind : ∀ c ∈ behind.head?, c.isDigit = false) :
    (digits ++ behind).takeWhile Char.isDigit = digits ∧
      (digits ++ behind).dropWhile Char.isDigit = behind := by
  rw [List.takeWhile_append_of_pos h, List.dropWhile_append_of_pos h]
  cases behind with
  | nil => exact ⟨List.append_nil _, rfl⟩
  | cons c cs =>
    have hc : ¬ c.isDigit = true := Bool.eq_false_iff.1 (hbehind c rfl)
    rw [List.takeWhile_cons_of_neg hc, List.dropWhile_cons_of_neg hc]
    exact ⟨List.append_nil _, rfl⟩

theorem IsDigits.toDigits (n : Nat) : IsDigits (Nat.toDigits 10 n) :=
  ⟨Nat.toDigits_ne_nil, fun _ hc => Nat.isDigit_of_mem_toDigits (by decide) (by decide) hc⟩

/-- A number is what its digits write. -/
theorem decimal_toDigits (n : Nat) : decimal (Nat.toDigits 10 n) = n := by
  rw [← Piece.digitsValue_eq, Piece.digitsValue, ← Nat.ofDigitChars_eq_foldl]
  exact Nat.ofDigitChars_ten_toDigits

/-- A run of digits does not go on in the text behind it, which begins with no digit, and with no
dot that a digit follows. -/
structure IsRun (digits behind : List Char) : Prop where
  digits : IsDigits digits
  maximal : ∀ c ∈ behind.head?, c.isDigit = false
  whole : ∀ fraction, behind = '.' :: fraction → ∀ c ∈ fraction.head?, c.isDigit = false

/-- A run of digits is one piece. -/
theorem pieces_run {digits behind : List Char} (h : IsRun digits behind) :
    pieces (digits ++ behind) = ⟨Piece.intRole digits, digits⟩ :: pieces behind := by
  obtain ⟨c, cs, rfl⟩ := List.exists_cons_of_ne_nil h.digits.1
  obtain ⟨hc, hcs⟩ := List.forall_mem_cons.1 h.digits.2
  obtain ⟨htake, hdrop⟩ := takeWhile_append_behind hcs h.maximal
  rw [List.cons_append, pieces, Piece.read_of_isDigit hc, Piece.readNumber_of_not_isDigit]
  · rw [htake, hdrop]
  · rw [hdrop]
    rintro fraction rfl
    cases fraction with
    | nil => rfl
    | cons d ds =>
      exact List.takeWhile_cons_of_neg (Bool.eq_false_iff.1 (h.whole _ rfl d rfl))

/-- Two runs of digits with a dot between them are one piece. -/
theorem pieces_fraction {whole fraction behind : List Char} (hwhole : IsDigits whole)
    (hfraction : IsDigits fraction) (hbehind : ∀ c ∈ behind.head?, c.isDigit = false) :
    pieces (whole ++ '.' :: fraction ++ behind) =
      ⟨Piece.floatRole whole fraction, whole ++ '.' :: fraction⟩ :: pieces behind := by
  obtain ⟨c, cs, rfl⟩ := List.exists_cons_of_ne_nil hwhole.1
  obtain ⟨d, ds, rfl⟩ := List.exists_cons_of_ne_nil hfraction.1
  obtain ⟨hc, hcs⟩ := List.forall_mem_cons.1 hwhole.2
  have hdot : ∀ c ∈ ('.' :: d :: (ds ++ behind)).head?, c.isDigit = false := by
    rintro _ ⟨⟩
    decide
  obtain ⟨htake, hdrop⟩ := takeWhile_append_behind hcs hdot
  obtain ⟨htake', hdrop'⟩ := takeWhile_append_behind hfraction.2 hbehind
  rw [List.cons_append] at htake' hdrop'
  rw [List.append_assoc, List.cons_append, List.cons_append, List.cons_append, pieces,
    Piece.read_of_isDigit hc, Piece.readNumber_of_isDigit (hfraction.2 d List.mem_cons_self) hdrop,
    htake, htake', hdrop', List.cons_append]

/-! ## What is said of a span -/

/-- Whether the spans have a byte in common. -/
def Span.meets (a b : Span) : Bool := max a.start b.start < min a.stop b.stop

namespace Scan

/-- The tokens and the faults that have a byte in common with the span. -/
def touching (s : Scan) (span : Span) : Scan where
  tokens := s.tokens.filter fun t => t.span.meets span
  diagnostics := s.diagnostics.filter fun d => d.span.any (·.meets span)

/-- Of what comes from the elements of a list, only that of one element is kept. -/
theorem filter_filterMap_split {α β : Type} {f : α → Option β} {p : β → Bool} {as bs : List α}
    {x : α} (hx : ∀ b ∈ f x, p b = true) (hothers : ∀ a ∈ as ++ bs, ∀ b ∈ f a, p b = false) :
    ((as ++ x :: bs).filterMap f).filter p = (f x).toList := by
  have hnone : ∀ cs : List α, (∀ c ∈ cs, c ∈ as ++ bs) → (cs.filterMap f).filter p = [] := by
    intro cs hcs
    refine List.filter_eq_nil_iff.2 fun b hb => ?_
    obtain ⟨a, ha, hab⟩ := List.mem_filterMap.1 hb
    exact Bool.eq_false_iff.1 (hothers a (hcs a ha) b hab)
  rw [List.filterMap_append, List.filter_append, hnone as fun _ => List.mem_append_left _,
    List.nil_append, List.filterMap_cons]
  cases hfx : f x with
  | none => exact hnone bs fun _ => List.mem_append_right _
  | some b =>
    dsimp only
    rw [List.filter_cons_of_pos (hx b hfx), hnone bs fun _ => List.mem_append_right _]
    rfl

variable {source : String} {x : Position × Piece}

/-- A piece has a byte. -/
theorem meets_tile (hx : x ∈ ofText source) : (tile x).span.meets (tile x).span = true := by
  have hlt : x.1.offset < (behind x).offset := by
    rw [behind, Position.offset_after]
    exact Nat.lt_add_of_pos_right (byteCount_pos (text_ne_nil hx))
  simpa [Span.meets, tile] using hlt

/-- A piece has no byte in common with those before it and those behind it. -/
theorem exists_split (hx : x ∈ ofText source) : ∃ as bs, ofText source = as ++ x :: bs ∧
    ∀ y ∈ as ++ bs, (tile y).span.meets (tile x).span = false := by
  obtain ⟨as, bs, hsplit⟩ := List.append_of_mem hx
  have hpairwise : (ofText source).Pairwise fun x y => (behind x).offset ≤ y.1.offset :=
    pairwise_located _ _
  rw [hsplit, List.pairwise_append] at hpairwise
  obtain ⟨-, hbehind, hbefore⟩ := hpairwise
  refine ⟨as, bs, hsplit, fun y hy => decide_eq_false ?_⟩
  show ¬ max y.1.offset x.1.offset < min (behind y).offset (behind x).offset
  rcases List.mem_append.1 hy with hy | hy
  · have := hbefore y hy x List.mem_cons_self
    omega
  · have := List.rel_of_pairwise_cons hbehind hy
    omega

/-- Of what the pieces give, each at its own span, only what comes from one piece touches it. -/
theorem filter_meets_tile {β : Type} {f : Position × Piece → Option β}
    (span? : β → Option Span)
    (hf : ∀ y ∈ ofText source, ∀ b ∈ f y, span? b = some (tile y).span) (hx : x ∈ ofText source) :
    ((ofText source).filterMap f).filter (fun b => (span? b).any (·.meets (tile x).span)) =
      (f x).toList := by
  obtain ⟨as, bs, hsplit, hothers⟩ := exists_split hx
  have hmem : ∀ y ∈ as ++ bs, y ∈ ofText source := by
    intro y hy
    rw [hsplit]
    exact List.mem_append.2 ((List.mem_append.1 hy).imp_right (List.mem_cons_of_mem x))
  rw [hsplit]
  refine filter_filterMap_split (fun b hb => ?_) fun y hy b hb => ?_
  · rw [hf x hx b hb]
    exact meets_tile hx
  · rw [hf y (hmem y hy) b hb]
    exact hothers y hy

theorem span_of_diagnostic? {d : Diagnostic} (hd : x.2.diagnostic? x.1 (behind x) = some d) :
    d.span = some (tile x).span := by
  unfold Piece.diagnostic? at hd
  split at hd
  · cases hd
    rfl
  · cases hd

/-- What is said of the bytes of a piece comes from the piece. -/
theorem touching_tile (hx : x ∈ ofText source) : (scan source).touching (tile x).span =
    ⟨(x.2.token? x.1 (behind x)).toList, (x.2.diagnostic? x.1 (behind x)).toList⟩ := by
  have htokens : (words .origin (pieces source.toList)).filter
      (fun t => t.span.meets (tile x).span) = (x.2.token? x.1 (behind x)).toList := by
    rw [words_eq]
    exact filter_meets_tile (fun t => some t.span)
      (fun y hy t ht => congrArg some (span_of_token? hy ht).1) hx
  have hdiagnostics : (faults .origin (pieces source.toList)).filter
      (fun d => d.span.any (·.meets (tile x).span)) = (x.2.diagnostic? x.1 (behind x)).toList := by
    rw [faults_eq]
    exact filter_meets_tile Diagnostic.span (fun y _ d hd => span_of_diagnostic? hd) hx
  -- the token at the end of the text has no bytes
  have hending : ∀ line, (Token.ending line source.utf8ByteSize).span.meets (tile x).span =
      false := by
    refine fun line => decide_eq_false ?_
    show ¬ max source.utf8ByteSize (tile x).span.start < min source.utf8ByteSize _
    omega
  rw [touching, tokens_scan, List.filter_append, htokens, diagnostics_scan, hdiagnostics,
    List.filter_cons_of_neg (by rw [hending]; decide), List.filter_nil, List.append_nil]

end Scan

/-! ## Numbers at their places -/

theorem Scan.located_append (p : Position) (ps qs : List Piece) : located p (ps ++ qs) =
    located p ps ++ located (p.after (ps.flatMap Piece.text)) qs := by
  induction ps generalizing p with
  | nil => rfl
  | cons piece ps ih =>
    rw [List.cons_append, located, ih, located, List.flatMap_cons, Position.after_append,
      List.cons_append]

/-- The scanner comes to digits behind the text before them, and they do not go on. -/
structure NumberAt (source before digits behind : String) : Prop where
  text : source = before ++ digits ++ behind
  starts : ∃ ps, ps <+: pieces source.toList ∧ ps.flatMap Piece.text = before.toList
  run : IsRun digits.toList behind.toList

/-- The bytes of a text behind another one. -/
def Span.behind (before text : String) : Span :=
  ⟨before.utf8ByteSize, before.utf8ByteSize + text.utf8ByteSize⟩

/-- The token of digits that write the integer `n`, behind the text before them. -/
def Token.int (before digits : String) (n : Int64) : Token :=
  ⟨.int, digits, some (.int n), 1 + before.toList.count '\n', .behind before digits⟩

/-- The fault of digits that write no integer. -/
def Diagnostic.invalidNumber (before digits : String) : Diagnostic where
  cause := .lex .invalidNumber
  span := some (.behind before digits)
  line := some (1 + before.toList.count '\n')

namespace NumberAt

variable {source before digits behind : String}

/-- The digits are a piece of the text. -/
theorem mem_ofText (h : NumberAt source before digits behind) :
    (Position.origin.after before.toList,
      (⟨Piece.intRole digits.toList, digits.toList⟩ : Piece)) ∈ Scan.ofText source := by
  obtain ⟨ps, ⟨qs, hsplit⟩, hbefore⟩ := h.starts
  have htext := flatMap_text_pieces source.toList
  rw [← hsplit, List.flatMap_append, hbefore, h.text, String.toList_append,
    String.toList_append, List.append_assoc, List.append_cancel_left_eq] at htext
  have hqs := pieces_behind hsplit.symm
  rw [htext, pieces_run h.run] at hqs
  rw [Scan.ofText, ← hsplit, ← hqs, Scan.located_append, hbefore]
  exact List.mem_append_right _ List.mem_cons_self

/-- The place behind the digits. They hold no line feed. -/
theorem after_digits (h : IsDigits digits.toList) :
    (⟨before.utf8ByteSize, 1 + before.toList.count '\n'⟩ : Position).after digits.toList =
      ⟨before.utf8ByteSize + digits.utf8ByteSize, 1 + before.toList.count '\n'⟩ := by
  have hcount : digits.toList.count '\n' = 0 :=
    List.count_eq_zero.2 fun hmem => absurd (h.2 _ hmem) (by decide)
  rw [← Position.after_origin, ← Position.after_append, ← String.toList_append,
    Position.after_origin, String.utf8ByteSize_append, String.toList_append, List.count_append,
    hcount, Nat.add_zero]

/-- Digits whose number is not too large are an integer. -/
theorem touching_of_le (h : NumberAt source before digits behind)
    (hle : decimal digits.toList ≤ Piece.maxInt) :
    (scan source).touching (.behind before digits) =
      ⟨[.int before digits (Int64.ofNat (decimal digits.toList))], []⟩ := by
  have htile := Scan.touching_tile h.mem_ofText
  simp only [Scan.tile, Scan.behind, Position.after_origin, after_digits h.run.digits,
    Piece.intRole, Piece.digitsValue_eq, if_pos hle, Piece.token?, Piece.diagnostic?,
    String.ofList_toList] at htile
  exact htile

/-- Digits whose number is too large are a fault. -/
theorem touching_of_lt (h : NumberAt source before digits behind)
    (hlt : Piece.maxInt < decimal digits.toList) :
    (scan source).touching (.behind before digits) = ⟨[], [.invalidNumber before digits]⟩ := by
  have htile := Scan.touching_tile h.mem_ofText
  simp only [Scan.tile, Scan.behind, Position.after_origin, after_digits h.run.digits,
    Piece.intRole, Piece.digitsValue_eq, if_neg (Nat.not_le_of_lt hlt), Piece.token?,
    Piece.diagnostic?] at htile
  exact htile

end NumberAt

end Scripting
