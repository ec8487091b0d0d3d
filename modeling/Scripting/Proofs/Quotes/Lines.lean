import Scripting.Diagnostic.Render
import Scripting.Proofs.Token.Words

/-!
# Lines of a text

* `Source.IsLine cs number line` : a line of a text told by what is before and behind it;
* `Source.isLine_of_end`, `Source.isLine_of_feed` : the text behind the last line feed, and before
  one;
* `Source.line?_eq_some_iff` : these are the lines that the text is split into;
* `Source.exists_isLine` : a part of the text without line feeds lies in one line;
* `Text.infix_trimBlankChars` : cutting off blanks keeps what has none at its ends, as words have
  (`IsWord.solid`).
-/

namespace Scripting

set_option autoImplicit false

namespace Source

/-! ## Where lines are -/

/-- The line of a number: it begins the text or stands behind a line feed, with as many line feeds
before it as the number tells, the first line being 1. It ends where the text ends, if it has a
character, or before a line feed; a carriage return before that line feed is no part of it. -/
def IsLine (cs : List Char) (number : Nat) (line : List Char) : Prop :=
  ∃ before ending behind, cs = before ++ line ++ ending ++ behind ∧
    (∀ c ∈ before.getLast?, c = '\n') ∧ number = 1 + before.count '\n' ∧ '\n' ∉ line ∧
    (ending = [] ∧ behind = [] ∧ line ≠ [] ∨
      ending = ['\n'] ∧ (∀ c ∈ line.getLast?, c ≠ '\r') ∨ ending = ['\r', '\n'])

/-! ### Splitting -/

theorem dropReturn_concat (line : List Char) : dropReturn (line ++ ['\r']) = line := by
  simp only [dropReturn, List.getLast?_concat, List.dropLast_concat]

theorem dropReturn_eq_self {line : List Char} (h : ∀ c ∈ line.getLast?, c ≠ '\r') :
    dropReturn line = line := by
  unfold dropReturn
  split
  · rename_i hlast
    exact absurd rfl (h _ hlast)
  · rfl

/-- A carriage return is cut off, or there is none at the end. -/
theorem dropReturn_cases (content : List Char) :
    content = dropReturn content ++ ['\r'] ∨
      content = dropReturn content ∧ ∀ c ∈ (dropReturn content).getLast?, c ≠ '\r' := by
  by_cases h : content.getLast? = some '\r'
  · obtain ⟨line, rfl⟩ := List.getLast?_eq_some_iff.1 h
    rw [dropReturn_concat]
    exact .inl rfl
  · have hlast : ∀ c ∈ content.getLast?, c ≠ '\r' := by
      rintro _ hc rfl
      exact h hc
    rw [dropReturn_eq_self hlast]
    exact .inr ⟨rfl, hlast⟩

/-- What ends with another character stays when a carriage return is cut off. -/
theorem infix_dropReturn {text content : List Char} (hne : text ≠ [])
    (hlast : ∀ c ∈ text.getLast?, c ≠ '\r') (h : text <:+: content) :
    text <:+: dropReturn content := by
  obtain ⟨left, right, rfl⟩ := h
  rcases dropReturn_cases (left ++ text ++ right) with heq | ⟨heq, -⟩
  · rcases List.eq_nil_or_concat right with rfl | ⟨right', c, rfl⟩
    · have hreturn := congrArg List.getLast? heq
      rw [List.append_nil, List.getLast?_append_of_ne_nil _ hne, List.getLast?_concat] at hreturn
      exact absurd rfl (hlast _ hreturn)
    · rw [List.concat_eq_append, ← List.append_assoc] at heq ⊢
      exact ⟨left, right', List.append_inj_left' heq rfl⟩
  · exact heq ▸ ⟨left, right, rfl⟩

theorem linesFrom_append {content : List Char} (h : '\n' ∉ content) (current rest : List Char) :
    linesFrom current (content ++ rest) = linesFrom (content.reverse ++ current) rest := by
  induction content generalizing current with
  | nil => rfl
  | cons c cs ih =>
    rw [List.mem_cons, not_or] at h
    rw [List.cons_append, linesFrom, if_neg (Ne.symm h.1), ih h.2, List.reverse_cons,
      List.append_assoc, List.singleton_append]

/-- A text without line feeds is one line, if it has a character. -/
theorem lines_of_not_mem {content : List Char} (h : '\n' ∉ content) :
    lines content = if content = [] then [] else [content] := by
  have hlines := linesFrom_append h [] []
  rw [List.append_nil, List.append_nil] at hlines
  rw [lines, hlines, linesFrom, List.reverse_reverse]
  simp only [List.isEmpty_iff, List.reverse_eq_nil_iff]

theorem lines_feed {content : List Char} (h : '\n' ∉ content) (rest : List Char) :
    lines (content ++ '\n' :: rest) = dropReturn content :: lines rest := by
  rw [lines, linesFrom_append h, linesFrom, if_pos rfl, List.append_nil, List.reverse_reverse,
    lines]

/-- A text has no line feed, or it has a first one. -/
theorem feed_cases (cs : List Char) :
    '\n' ∉ cs ∨ ∃ content rest, cs = content ++ '\n' :: rest ∧ '\n' ∉ content := by
  by_cases h : '\n' ∈ cs
  · exact .inr (List.eq_append_cons_of_mem h)
  · exact .inl h

/-! ### Both are the same -/

/-- What is behind the last line feed is a line, if it has a character. -/
theorem isLine_of_end {before content : List Char} (hbefore : ∀ c ∈ before.getLast?, c = '\n')
    (hcontent : '\n' ∉ content) (hne : content ≠ []) :
    IsLine (before ++ content) (1 + before.count '\n') content :=
  ⟨before, [], [], by simp, hbefore, rfl, hcontent, .inl ⟨rfl, rfl, hne⟩⟩

/-- What is between two line feeds is a line, but for a carriage return at its end. -/
theorem isLine_of_feed {before content : List Char} (hbefore : ∀ c ∈ before.getLast?, c = '\n')
    (hcontent : '\n' ∉ content) (rest : List Char) :
    IsLine (before ++ content ++ '\n' :: rest) (1 + before.count '\n') (dropReturn content) := by
  rcases dropReturn_cases content with heq | ⟨heq, hlast⟩
  · refine ⟨before, ['\r', '\n'], rest, ?_, hbefore, rfl, ?_, .inr (.inr rfl)⟩
    · nth_rewrite 1 [heq]
      simp
    · rw [heq] at hcontent
      exact fun hmem => hcontent (List.mem_append_left _ hmem)
  · refine ⟨before, ['\n'], rest, ?_, hbefore, rfl, heq ▸ hcontent, .inr (.inl ⟨rfl, hlast⟩)⟩
    rw [← heq]
    simp

theorem IsLine.behind {content rest line : List Char} {number : Nat} (h : IsLine rest number line)
    (hcontent : '\n' ∉ content) : IsLine (content ++ '\n' :: rest) (number + 1) line := by
  obtain ⟨before, ending, behind, rfl, hbefore, rfl, hline⟩ := h
  refine ⟨content ++ '\n' :: before, ending, behind, by simp, ?_, ?_, hline⟩
  · rw [List.getLast?_append_cons, List.getLast?_cons]
    cases hlast : before.getLast? with
    | none => simp
    | some c => simpa using hbefore c hlast
  · rw [List.count_append, List.count_cons_self, List.count_eq_zero_of_not_mem hcontent]
    omega

theorem isLine_of_getElem? {cs line : List Char} {n : Nat} (h : (lines cs)[n]? = some line) :
    IsLine cs (n + 1) line := by
  have hstart : ∀ c ∈ ([] : List Char).getLast?, c = '\n' := by simp
  induction n generalizing cs with
  | zero =>
    rcases feed_cases cs with hcs | ⟨content, rest, rfl, hcontent⟩
    · rw [lines_of_not_mem hcs] at h
      split at h
      · cases h
      · rename_i hne
        cases h
        exact isLine_of_end hstart hcs hne
    · rw [lines_feed hcontent] at h
      cases h
      exact isLine_of_feed hstart hcontent rest
  | succ n ih =>
    rcases feed_cases cs with hcs | ⟨content, rest, rfl, hcontent⟩
    · rw [lines_of_not_mem hcs] at h
      split at h <;> cases h
    · rw [lines_feed hcontent, List.getElem?_cons_succ] at h
      exact (ih h).behind hcontent

theorem getElem?_of_isLine {before line ending behind : List Char}
    (hbefore : ∀ c ∈ before.getLast?, c = '\n') (hline : '\n' ∉ line)
    (hending : ending = [] ∧ behind = [] ∧ line ≠ [] ∨
      ending = ['\n'] ∧ (∀ c ∈ line.getLast?, c ≠ '\r') ∨ ending = ['\r', '\n']) :
    (lines (before ++ line ++ ending ++ behind))[before.count '\n']? = some line := by
  generalize hn : before.count '\n' = n
  induction n generalizing before with
  | zero =>
    obtain rfl : before = [] := by
      rw [List.count_eq_zero] at hn
      cases hlast : before.getLast? with
      | none => exact List.getLast?_eq_none_iff.1 hlast
      | some c => exact absurd (hbefore c hlast ▸ List.mem_of_getLast? hlast) hn
    rw [List.nil_append]
    rcases hending with ⟨rfl, rfl, hne⟩ | ⟨rfl, hlast⟩ | rfl
    · rw [List.append_nil, List.append_nil, lines_of_not_mem hline, if_neg hne]
      rfl
    · rw [List.append_assoc, List.singleton_append, lines_feed hline, dropReturn_eq_self hlast]
      rfl
    · have hreturn : '\n' ∉ line ++ ['\r'] := by simpa using hline
      rw [show line ++ ['\r', '\n'] ++ behind = line ++ ['\r'] ++ '\n' :: behind by simp,
        lines_feed hreturn, dropReturn_concat]
      rfl
  | succ n ih =>
    have hmem : '\n' ∈ before := List.count_pos_iff.1 (by omega)
    obtain ⟨content, rest, rfl, hcontent⟩ := List.eq_append_cons_of_mem hmem
    rw [List.count_append, List.count_cons_self, List.count_eq_zero_of_not_mem hcontent] at hn
    rw [show content ++ '\n' :: rest ++ line ++ ending ++ behind =
      content ++ '\n' :: (rest ++ line ++ ending ++ behind) by simp, lines_feed hcontent,
      List.getElem?_cons_succ]
    refine ih (fun c hc => hbefore c ?_) (by omega)
    rw [List.getLast?_append_cons, List.getLast?_cons, hc]
    rfl

/-- The line of a number is what is told by what is before and behind it. -/
theorem line?_eq_some_iff {cs line : List Char} {number : Nat} (h : 1 ≤ number) :
    line? cs number = some line ↔ IsLine cs number line := by
  obtain ⟨n, rfl⟩ := Nat.exists_eq_add_of_le' h
  rw [line?, Nat.add_sub_cancel]
  constructor
  · exact isLine_of_getElem?
  · rintro ⟨before, ending, behind, rfl, hbefore, hnumber, hline, hending⟩
    obtain rfl : n = before.count '\n' := by omega
    exact getElem?_of_isLine hbefore hline hending

/-! ## Parts of lines -/

/-- The line at the end of a text begins behind its last line feed. -/
theorem exists_lineStart (before : List Char) : ∃ done current, before = done ++ current ∧
    (∀ c ∈ done.getLast?, c = '\n') ∧ '\n' ∉ current := by
  induction before using List.reverseRecOn with
  | nil => exact ⟨[], [], rfl, by simp, List.not_mem_nil⟩
  | append_singleton before c ih =>
    obtain ⟨done, current, rfl, hdone, hcurrent⟩ := ih
    by_cases hc : c = '\n'
    · refine ⟨done ++ current ++ [c], [], (List.append_nil _).symm, fun d hd => ?_,
        List.not_mem_nil⟩
      rw [List.getLast?_concat] at hd
      cases hd
      exact hc
    · refine ⟨done, current ++ [c], List.append_assoc .., hdone, ?_⟩
      rw [List.mem_append, List.mem_singleton, not_or]
      exact ⟨hcurrent, Ne.symm hc⟩

/-- A part of a text that has no line feed, and does not end with a carriage return, lies in the
line of the number that its place tells. -/
theorem exists_isLine (before behind : List Char) {text : List Char} (hne : text ≠ [])
    (hfeed : '\n' ∉ text) (hlast : ∀ c ∈ text.getLast?, c ≠ '\r') :
    ∃ line, IsLine (before ++ text ++ behind) (1 + before.count '\n') line ∧ text <:+: line := by
  obtain ⟨done, current, rfl, hdone, hcurrent⟩ := exists_lineStart before
  have hcount : (done ++ current).count '\n' = done.count '\n' := by
    rw [List.count_append, List.count_eq_zero_of_not_mem hcurrent, Nat.add_zero]
  rw [hcount]
  have hfree {right : List Char} (hright : '\n' ∉ right) : '\n' ∉ current ++ text ++ right := by
    simp only [List.mem_append, not_or]
    exact ⟨⟨hcurrent, hfeed⟩, hright⟩
  have hpart (right : List Char) : text <:+: current ++ text ++ right := ⟨current, right, rfl⟩
  rcases feed_cases behind with hbehind | ⟨right, rest, rfl, hright⟩
  · refine ⟨current ++ text ++ behind, ?_, hpart behind⟩
    rw [show done ++ current ++ text ++ behind = done ++ (current ++ text ++ behind) by simp]
    exact isLine_of_end hdone (hfree hbehind) (by simp [hne])
  · refine ⟨dropReturn (current ++ text ++ right), ?_, infix_dropReturn hne hlast (hpart right)⟩
    rw [show done ++ current ++ text ++ (right ++ '\n' :: rest) =
      done ++ (current ++ text ++ right) ++ '\n' :: rest by simp]
    exact isLine_of_feed hdone (hfree hright) rest

end Source

/-! ## Blanks at the ends -/

namespace Text

/-- A text that begins and ends with characters that are not blank. -/
structure Solid (text : List Char) : Prop where
  ne_nil : text ≠ []
  head : ∀ c ∈ text.head?, isBlank c = false
  last : ∀ c ∈ text.getLast?, isBlank c = false

/-- Blanks are cut off before a character that is not blank. -/
theorem dropWhile_append_of_head {text : List Char} (hne : text ≠ [])
    (hhead : ∀ c ∈ text.head?, isBlank c = false) (left : List Char) :
    ∃ left', (left ++ text).dropWhile isBlank = left' ++ text := by
  obtain ⟨c, cs, rfl⟩ := List.exists_cons_of_ne_nil hne
  rw [List.dropWhile_append]
  split
  · exact ⟨[], List.dropWhile_cons_of_neg (by simp [hhead c rfl])⟩
  · exact ⟨_, rfl⟩

/-- What begins and ends with characters that are not blank stays when blanks are cut off. -/
theorem infix_trimBlankChars {text line : List Char} (solid : Solid text) (h : text <:+: line) :
    text <:+: trimBlankChars line := by
  obtain ⟨left, right, rfl⟩ := h
  obtain ⟨hne, hhead, hlast⟩ := solid
  have hhead' : ∀ c ∈ (text ++ right).head?, isBlank c = false := by
    rw [List.head?_append_of_ne_nil _ hne]
    exact hhead
  obtain ⟨left', hleft⟩ := dropWhile_append_of_head (by simp [hne]) hhead' left
  have hlast' : ∀ c ∈ (text.reverse ++ left'.reverse).head?, isBlank c = false := by
    rw [List.head?_append_of_ne_nil _ (by simpa using hne), List.head?_reverse]
    exact hlast
  obtain ⟨right', hright⟩ := dropWhile_append_of_head (by simp [hne]) hlast' right.reverse
  rw [trimBlankChars, List.append_assoc left, hleft, List.reverse_append, List.reverse_append,
    List.append_assoc, hright]
  exact ⟨left', right'.reverse, by simp⟩

end Text

/-! ## Words have no blanks at their ends -/

namespace Text

open Piece (isNameStart isNamePart)

theorem Solid.of_forall {text : List Char} (hne : text ≠ [])
    (h : ∀ c ∈ text, isBlank c = false) : Solid text where
  ne_nil := hne
  head c hc := h c (List.mem_of_head? hc)
  last c hc := h c (List.mem_of_getLast? hc)

theorem isBlank_of_isNamePart {c : Char} (h : isNamePart c = true) : isBlank c = false := by
  have hrange : 48 ≤ c.toNat ∧ c.toNat ≤ 122 := by
    rcases (by simpa [isNamePart] using h : c.isAlphanum = true ∨ c = '_') with h | rfl
    · simp only [Char.isAlphanum, Char.isAlpha, Char.isUpper, Char.isLower, Char.isDigit,
        Bool.or_eq_true, Bool.and_eq_true, decide_eq_true_eq, ge_iff_le,
        UInt32.le_iff_toNat_le] at h
      simp only [Char.toNat_val, Char.reduceToNat] at h
      omega
    · decide
  rw [isBlank, List.any_eq_false]
  simp only [blankRanges, List.forall_mem_cons, Bool.and_eq_true, decide_eq_true_eq]
  refine ⟨?_, ?_, ?_, ?_, ?_, ?_, ?_, ?_, ?_, ?_, List.forall_mem_nil _⟩ <;> omega

theorem isBlank_of_isNameStart {c : Char} (h : isNameStart c = true) : isBlank c = false := by
  refine isBlank_of_isNamePart ?_
  simp only [isNameStart, isNamePart, Char.isAlphanum, Bool.or_eq_true] at h ⊢
  exact h.imp_left .inl

theorem isBlank_of_isDigit {c : Char} (h : c.isDigit = true) : isBlank c = false := by
  refine isBlank_of_isNamePart ?_
  simp only [isNamePart, Char.isAlphanum, h, Bool.or_true, Bool.true_or]

theorem isBlank_of_mem_symbols {text : List Char} {kind : Kind}
    (h : (String.ofList text, kind) ∈ Kind.symbols) :
    text ≠ [] ∧ ∀ c ∈ text, isBlank c = false := by
  have hall : ∀ entry ∈ Kind.symbols, entry.1.toList ≠ [] ∧
      entry.1.toList.all (isBlank · = false) = true := by decide
  have htext := hall _ h
  simpa using htext

end Text

/-- A word begins and ends with characters that are not blank. -/
theorem IsWord.solid {text : List Char} (h : IsWord text) : Text.Solid text := by
  rcases h.shape with ⟨c, cs, rfl, hc, hcs⟩ | ⟨hne, hdigits⟩ |
    ⟨whole, fraction, rfl, ⟨-, hwhole⟩, ⟨-, hfraction⟩⟩ | ⟨content, rfl, -⟩ | ⟨kind, hsymbol⟩
  · refine .of_forall (by simp) (List.forall_mem_cons.2 ⟨?_, fun d hd => ?_⟩)
    · exact Text.isBlank_of_isNameStart hc
    · exact Text.isBlank_of_isNamePart (hcs d hd)
  · exact .of_forall hne fun c hc => Text.isBlank_of_isDigit (hdigits c hc)
  · refine .of_forall (by simp) ?_
    rw [List.forall_mem_append, List.forall_mem_cons]
    exact ⟨fun c hc => Text.isBlank_of_isDigit (hwhole c hc), by decide,
      fun c hc => Text.isBlank_of_isDigit (hfraction c hc)⟩
  · refine ⟨by simp, ?_, fun c hc => ?_⟩
    · rintro _ ⟨⟩
      decide
    · rw [List.getLast?_concat] at hc
      cases hc
      decide
  · obtain ⟨hne, hall⟩ := Text.isBlank_of_mem_symbols hsymbol
    exact .of_forall hne hall

end Scripting
