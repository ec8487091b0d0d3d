import Mathlib
import Scripting.Proofs.Binary64.Magnitudes
import Scripting.Proofs.Values.Integers

/-!
# Floats as text

* `IsPointed` : digits, a dot and digits, which are read as one float (`scan_pointed`);
* `Binary64.isPointed_positional`, `Binary64.isDigits_positional` : decimals with and without a
  fraction;
* `Binary64.isPointed_magnitudeText`, `Binary64.isDigits_magnitudeText` : the texts of floats
  without a sign;
* `ShowsFloat` : a text can be told from that of an integer, and is read as a float;
* `shows_float_iff` : the text of a finite float does so, unless the float is a whole number and not
  less than `10 ^ 16`.
-/

namespace Scripting

set_option autoImplicit false

/-! ## Digits with a dot -/

/-- The text is a run of digits, a dot and a run of digits. -/
def IsPointed (text : List Char) : Prop :=
  ∃ whole fraction, IsDigits whole ∧ IsDigits fraction ∧ text = whole ++ '.' :: fraction

theorem IsDigits.append {cs ds : List Char} (hcs : IsDigits cs)
    (hds : ∀ d ∈ ds, d.isDigit = true) : IsDigits (cs ++ ds) := by
  refine ⟨fun h => hcs.1 (List.append_eq_nil_iff.1 h).1, fun c hc => ?_⟩
  exact (List.mem_append.1 hc).elim (hcs.2 c) (hds c)

theorem dot_not_mem_of_isDigits {cs : List Char} (h : ∀ c ∈ cs, c.isDigit = true) : '.' ∉ cs :=
  fun hmem => absurd (h _ hmem) (by decide)

theorem IsDigits.not_isPointed {cs : List Char} (h : IsDigits cs) : ¬ IsPointed cs := by
  rintro ⟨whole, fraction, -, -, rfl⟩
  exact dot_not_mem_of_isDigits h.2 (List.mem_append_right _ List.mem_cons_self)

/-- Digits, a dot and digits are one float, and nothing else. -/
theorem scan_pointed {text : List Char} (h : IsPointed text) :
    ∃ t line offset, scan (.ofList text) = ⟨[t, .ending line offset], []⟩ ∧ t.kind = .float ∧
      t.lexeme = .ofList text := by
  obtain ⟨whole, fraction, hwhole, hfraction, rfl⟩ := h
  have hpieces : pieces (whole ++ '.' :: fraction ++ []) = _ :=
    pieces_fraction hwhole hfraction nofun
  rw [List.append_nil, pieces] at hpieces
  rw [scan, String.toList_ofList, hpieces]
  exact ⟨_, _, _, rfl, rfl, rfl⟩

namespace Binary64

/-! ## Decimals without an exponent -/

/-- A decimal with a fraction has digits on both sides of its point. -/
theorem isPointed_positional {d : Decimal} (h : d.exponent < 0) :
    IsPointed d.positional.toList := by
  unfold Decimal.positional
  rw [if_neg (Int.not_le.2 h)]
  set digits := Nat.toDigits 10 d.digits
  set places := (-d.exponent).toNat
  set padded := List.replicate (places + 1 - digits.length) '0' ++ digits with hpadded
  have hplaces : 0 < places := by omega
  have hlength : places < padded.length := by
    rw [hpadded, List.length_append, List.length_replicate]
    omega
  have hdigits : ∀ c ∈ padded, c.isDigit = true := by
    intro c hc
    rcases List.mem_append.1 hc with hc | hc
    · rw [List.eq_of_mem_replicate hc]
      decide
    · exact (IsDigits.toDigits d.digits).2 c hc
  refine ⟨padded.take (padded.length - places), padded.drop (padded.length - places),
    ⟨?_, fun c hc => hdigits c (List.mem_of_mem_take hc)⟩,
    ⟨?_, fun c hc => hdigits c (List.mem_of_mem_drop hc)⟩, String.toList_ofList⟩
  · refine List.ne_nil_of_length_pos ?_
    rw [List.length_take]
    omega
  · refine List.ne_nil_of_length_pos ?_
    rw [List.length_drop]
    omega

/-- A decimal without a fraction is digits only. -/
theorem isDigits_positional {d : Decimal} (h : 0 ≤ d.exponent) : IsDigits d.positional.toList := by
  unfold Decimal.positional
  rw [if_pos h, String.toList_ofList]
  refine (IsDigits.toDigits d.digits).append fun c hc => ?_
  rw [List.eq_of_mem_replicate hc]
  decide

/-! ## Floats without a sign -/

variable {mantissa : ℕ} {exponent : ℤ} {lowerIsNear : Bool}

/-- A float shows a point, unless it is whole and too large. -/
theorem isPointed_magnitudeText (h : IsMantissa mantissa lowerIsNear)
    (hsmall : IsWhole (mantissa * 2 ^ exponent) → (mantissa * 2 ^ exponent : ℚ) < 10 ^ 16) :
    IsPointed (magnitudeText mantissa exponent lowerIsNear).toList := by
  unfold magnitudeText
  split
  · rw [String.toList_append, String.toList_ofList]
    exact ⟨_, ['0'], IsDigits.toDigits _, ⟨by decide, List.all_eq_true.1 (by decide)⟩, rfl⟩
  · rename_i hno
    rw [isSmallWhole_iff] at hno
    have hwhole : ¬ IsWhole (mantissa * 2 ^ exponent) := fun hwhole => hno ⟨hwhole, hsmall hwhole⟩
    have hpos : 0 < mantissa := by
      refine Nat.pos_of_ne_zero fun hzero => hwhole ⟨0, ?_⟩
      rw [hzero, Nat.cast_zero, zero_mul]
    exact isPointed_positional (Interval.exponent_shortest_lt_zero hpos h hwhole)

/-- A large float shows digits only. -/
theorem isDigits_magnitudeText (hlarge : (10 : ℚ) ^ 16 ≤ mantissa * 2 ^ exponent) :
    IsDigits (magnitudeText mantissa exponent lowerIsNear).toList := by
  unfold magnitudeText
  have hpos : 0 < mantissa := by
    refine Nat.pos_of_ne_zero fun hzero => ?_
    rw [hzero, Nat.cast_zero, zero_mul] at hlarge
    norm_num at hlarge
  rw [if_neg fun hsmall => not_lt_of_ge hlarge ((isSmallWhole_iff ..).1 hsmall).2]
  refine isDigits_positional (Interval.exponent_shortest_nonneg Interval.unit_ofParts_pos
    (Interval.value_ofParts_pos hpos) ?_)
  rwa [Interval.center_ofParts]

theorem isDigit_head_magnitudeText (h : IsMantissa mantissa lowerIsNear) {c : Char}
    (hc : (magnitudeText mantissa exponent lowerIsNear).toList.head? = some c) :
    c.isDigit = true := by
  by_cases hlarge : (10 : ℚ) ^ 16 ≤ mantissa * 2 ^ exponent
  · exact (isDigits_magnitudeText hlarge).2 c (List.mem_of_mem_head? hc)
  · obtain ⟨whole, fraction, hwhole, -, htext⟩ :=
      isPointed_magnitudeText h fun _ => lt_of_not_ge hlarge
    rw [htext, List.head?_append_of_ne_nil _ hwhole.1] at hc
    exact hwhole.2 c (List.mem_of_mem_head? hc)

end Binary64

/-! ## The texts of floats -/

/-- The text without the minus that it may begin with. -/
def unsigned (text : String) : List Char :=
  if text.toList.head? = some '-' then text.toList.tail else text.toList

/-- The text shows that it is that of a float: it has a point with digits on both sides, it is the
text of no integer, and without its minus it is read as a float and nothing else. -/
structure ShowsFloat (text : String) : Prop where
  point : IsPointed (unsigned text)
  noInt : ∀ n : Int64, text ≠ (Value.int n).text
  token : ∃ t line offset, scan (.ofList (unsigned text)) = ⟨[t, .ending line offset], []⟩ ∧
    t.kind = .float ∧ t.lexeme = .ofList (unsigned text)

theorem mem_of_mem_unsigned {text : String} {c : Char} (h : c ∈ unsigned text) :
    c ∈ text.toList := by
  unfold unsigned at h
  split at h
  · exact List.mem_of_mem_tail h
  · exact h

/-- There is no point in the text of an integer. -/
theorem dot_not_mem_text_int (n : Int64) : '.' ∉ (Value.int n).text.toList := by
  rw [toList_text_int, List.mem_append, not_or]
  refine ⟨?_, dot_not_mem_of_isDigits (IsDigits.toDigits _).2⟩
  split <;> simp

/-- A point in the right place is enough. -/
theorem ShowsFloat.of_isPointed {text : String} (h : IsPointed (unsigned text)) :
    ShowsFloat text := by
  refine ⟨h, ?_, scan_pointed h⟩
  rintro n rfl
  obtain ⟨whole, fraction, -, -, hsplit⟩ := h
  refine dot_not_mem_text_int n (mem_of_mem_unsigned ?_)
  rw [hsplit]
  exact List.mem_append_right _ List.mem_cons_self

open Binary64

/-- The text of a finite float is that of its magnitude, with a minus or without. -/
theorem unsigned_text_float {x : Float} (hx : x.isFinite = true) :
    ∃ mantissa exponent lowerIsNear,
      unsigned (Value.float x).text = (magnitudeText mantissa exponent lowerIsNear).toList ∧
        magnitude x = mantissa * 2 ^ exponent ∧ IsMantissa mantissa lowerIsNear := by
  obtain ⟨negative, mantissa, exponent, lowerIsNear, hparts, hmagnitude, hmantissa⟩ :=
    ofBits_of_isFinite hx
  refine ⟨mantissa, exponent, lowerIsNear, ?_, hmagnitude, hmantissa⟩
  have hhead : (magnitudeText mantissa exponent lowerIsNear).toList.head? ≠ some '-' := by
    intro h
    have hdigit := isDigit_head_magnitudeText hmantissa h
    exact absurd hdigit (by decide)
  rw [Value.text, Binary64.text, hparts]
  dsimp only
  unfold unsigned
  rw [String.toList_append]
  cases negative with
  | true => rfl
  | false => exact if_neg hhead

/-- A finite float shows that it is one, unless it is a whole number and not less than `10 ^ 16`. -/
theorem shows_float_iff {x : Float} (hx : x.isFinite = true) :
    ShowsFloat (Value.float x).text ↔ (IsWhole (magnitude x) → magnitude x < 10 ^ 16) := by
  obtain ⟨mantissa, exponent, lowerIsNear, htext, hmagnitude, hmantissa⟩ := unsigned_text_float hx
  rw [hmagnitude]
  constructor
  · intro h hwhole
    have hpoint := h.point
    rw [htext] at hpoint
    exact lt_of_not_ge fun hlarge => (isDigits_magnitudeText hlarge).not_isPointed hpoint
  · intro hsmall
    refine .of_isPointed ?_
    rw [htext]
    exact isPointed_magnitudeText hmantissa hsmall

/-- The greatest float below `10 ^ 16` shows a point. -/
theorem shows_float_greatest : ShowsFloat (Value.float (.ofBits 4846369599423283199)).text :=
  (shows_float_iff (by decide +kernel)).2 fun _ => by
    rw [show magnitude (.ofBits 4846369599423283199) =
      (4999999999999999 : ℕ) * 2 ^ (1 : ℤ) from rfl]
    norm_num

/-- The next float is written as an integer is. -/
theorem not_shows_float_next : (Float.ofBits 4846369599423283200).isFinite = true ∧
    ¬ ShowsFloat (Value.float (.ofBits 4846369599423283200)).text :=
  ⟨by decide +kernel, fun h => h.noInt 10000000000000000 (by decide +kernel)⟩

end Scripting
