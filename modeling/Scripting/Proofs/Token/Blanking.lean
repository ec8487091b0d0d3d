import Scripting.Proofs.Token.Layout

/-!
# Texts whose faults are blanked

* `blankBytes` : the bytes of a text, with spaces for those that diagnostics span, line feeds kept;
* `blankChar` : the characters that these bytes are, where a whole character is blanked
  (`bytesOf_blankChar`, `after_blank`);
* `Piece.cleared` : the pieces that a piece becomes (`pieces_clearedText`, `ofPieces_cleared`);
* `scan_blanked` : a text whose faults are blanked has its tokens and no faults.
-/

namespace Scripting

set_option autoImplicit false

open Piece (isSpace)
open Position (byteCount)

/-! ## Blanking bytes -/

/-- Whether the byte at the offset lies in the span of the diagnostic. -/
def Diagnostic.covers (d : Diagnostic) (offset : Nat) : Bool :=
  d.span.any fun span => decide (span.start ≤ offset ∧ offset < span.stop)

/-- The byte that takes the place of another: a space, or the line feed that was there. -/
def blankByte (byte : UInt8) : UInt8 := if byte = 10 then 10 else 32

/-- The bytes of a text, those that the diagnostics span blanked. The first byte is at `start`. -/
def blankBytes (ds : List Diagnostic) (start : Nat) (bytes : List UInt8) : List UInt8 :=
  bytes.mapIdx fun i byte => if ds.any (·.covers (start + i)) then blankByte byte else byte

/-- The bytes of characters. -/
def bytesOf (cs : List Char) : List UInt8 := cs.flatMap String.utf8EncodeChar

theorem toByteArray_eq_bytesOf (s : String) : s.toByteArray.data.toList = bytesOf s.toList := by
  rw [← String.utf8Encode_toList, List.utf8Encode, List.data_toByteArray, bytesOf]

theorem bytesOf_append (cs ds : List Char) : bytesOf (cs ++ ds) = bytesOf cs ++ bytesOf ds := by
  unfold bytesOf
  exact List.flatMap_append

theorem length_bytesOf (cs : List Char) : (bytesOf cs).length = byteCount cs := by
  induction cs with
  | nil => rfl
  | cons c cs ih =>
    rw [bytesOf, List.flatMap_cons, List.length_append, String.length_utf8EncodeChar, byteCount,
      ← ih, bytesOf]

section

variable {ds : List Diagnostic} {start : Nat} {bytes : List UInt8}

theorem blankBytes_append (bytes' : List UInt8) : blankBytes ds start (bytes ++ bytes') =
    blankBytes ds start bytes ++ blankBytes ds (start + bytes.length) bytes' := by
  unfold blankBytes
  rw [List.mapIdx_append]
  congr 2
  funext i byte
  rw [show start + (i + bytes.length) = start + bytes.length + i by omega]

/-- Blanking looks only at which bytes are spanned. -/
theorem blankBytes_congr {ds' : List Diagnostic}
    (h : ∀ i < bytes.length, ds.any (·.covers (start + i)) = ds'.any (·.covers (start + i))) :
    blankBytes ds start bytes = blankBytes ds' start bytes := by
  unfold blankBytes
  rw [List.mapIdx_eq_mapIdx_iff]
  intro i hi
  rw [h i hi]

theorem blankBytes_of_covered (h : ∀ i < bytes.length, ds.any (·.covers (start + i)) = true) :
    blankBytes ds start bytes = bytes.map blankByte := by
  unfold blankBytes
  apply List.ext_getElem
  · rw [List.length_mapIdx, List.length_map]
  · intro i hi _
    rw [List.length_mapIdx] at hi
    rw [List.getElem_mapIdx, List.getElem_map, if_pos (h i hi)]

theorem blankBytes_nil (start : Nat) (bytes : List UInt8) : blankBytes [] start bytes = bytes := by
  unfold blankBytes
  apply List.ext_getElem
  · rw [List.length_mapIdx]
  · intro i _ _
    rw [List.getElem_mapIdx]
    rfl

end

/-! ## Blanking characters -/

/-- The characters that take the place of another: a space for each of its bytes, or the line feed
that was there. -/
def blankChar (c : Char) : List Char :=
  if c = '\n' then ['\n'] else List.replicate c.utf8Size ' '

theorem isSpace_of_mem_blankChar {c d : Char} (h : d ∈ blankChar c) : isSpace d = true := by
  unfold blankChar at h
  split at h
  · rw [List.mem_singleton.1 h]
    rfl
  · rw [List.eq_of_mem_replicate h]
    rfl

theorem blankChar_ne_nil (c : Char) : blankChar c ≠ [] := by
  unfold blankChar
  have hpos := c.utf8Size_pos
  split
  · exact List.cons_ne_nil _ _
  · rw [Ne, List.replicate_eq_nil_iff]
    omega

/-- A byte of a character is that character, or no ASCII character. -/
theorem byte_cases {c : Char} {byte : UInt8} (h : byte ∈ String.utf8EncodeChar c) :
    c.val.toNat < 128 ∧ byte = UInt8.ofNat c.val.toNat ∨
      ∃ n, 128 ≤ n ∧ n < 256 ∧ byte = UInt8.ofNat n := by
  unfold String.utf8EncodeChar at h
  dsimp only at h
  split at h
  · exact .inl ⟨by omega, List.mem_singleton.1 h⟩
  · right
    split at h
    · simp only [List.mem_cons, List.not_mem_nil, or_false] at h
      rcases h with h | h
      all_goals exact ⟨_, by omega, by omega, h⟩
    · split at h
      · simp only [List.mem_cons, List.not_mem_nil, or_false] at h
        rcases h with h | h | h
        all_goals exact ⟨_, by omega, by omega, h⟩
      · simp only [List.mem_cons, List.not_mem_nil, or_false] at h
        rcases h with h | h | h | h
        all_goals exact ⟨_, by omega, by omega, h⟩

/-- Only a line feed has the byte of a line feed. -/
theorem eq_of_mem_utf8EncodeChar {c : Char} (h : 10 ∈ String.utf8EncodeChar c) : c = '\n' := by
  have htoNat : ∀ n : Nat, n < 256 → (10 : UInt8) = UInt8.ofNat n → n = 10 := by
    intro n hn heq
    have := congrArg UInt8.toNat heq
    rw [UInt8.toNat_ofNat_of_lt' hn] at this
    exact this.symm
  rcases byte_cases h with ⟨hlt, heq⟩ | ⟨n, hle, hlt, heq⟩
  · apply Char.ext
    apply UInt32.toNat_inj.1
    exact htoNat _ (by omega) heq
  · have := htoNat n hlt heq
    omega

/-- Blanking a character is blanking its bytes. -/
theorem bytesOf_blankChar (c : Char) :
    bytesOf (blankChar c) = (String.utf8EncodeChar c).map blankByte := by
  unfold blankChar
  split
  · rename_i h
    rw [h]
    rfl
  · rename_i h
    have hspaces : bytesOf (List.replicate c.utf8Size ' ') = List.replicate c.utf8Size 32 := by
      unfold bytesOf
      rw [List.flatMap_replicate]
      exact List.flatten_replicate_singleton
    have hbytes : ∀ byte ∈ String.utf8EncodeChar c, blankByte byte = 32 := by
      intro byte hbyte
      unfold blankByte
      rw [if_neg]
      rintro rfl
      exact h (eq_of_mem_utf8EncodeChar hbyte)
    rw [hspaces, List.map_congr_left hbytes, List.map_const', String.length_utf8EncodeChar]

theorem bytesOf_blank (cs : List Char) :
    bytesOf (cs.flatMap blankChar) = (bytesOf cs).map blankByte := by
  induction cs with
  | nil => rfl
  | cons c cs ih =>
    rw [List.flatMap_cons, bytesOf_append, ih, bytesOf_blankChar, ← List.map_append]
    rfl

/-- A blanked text ends where the text did. -/
theorem after_blank (p : Position) (cs : List Char) :
    p.after (cs.flatMap blankChar) = p.after cs := by
  induction cs generalizing p with
  | nil => rfl
  | cons c cs ih =>
    have hspaces : ∀ n : Nat, p.after (List.replicate n ' ') = ⟨p.offset + n, p.line⟩ := by
      intro n
      induction n generalizing p with
      | zero => rfl
      | succ n ihn =>
        rw [List.replicate_succ, Position.after_cons, ihn]
        congr 1
        show p.offset + 1 + n = p.offset + (n + 1)
        omega
    rw [List.flatMap_cons, Position.after_append, ih, Position.after_cons]
    congr 1
    unfold blankChar
    split
    · rename_i h
      rw [h]
      rfl
    · rename_i h
      rw [hspaces, Position.next, if_neg h]

/-! ## Blanking pieces -/

namespace Piece

/-- The pieces that a piece becomes: a fault is blanked, and each of its characters is a piece of
its own. -/
def cleared (piece : Piece) : List Piece :=
  match piece.role with
  | .fault _ => (piece.text.flatMap blankChar).map fun c => ⟨.blank, [c]⟩
  | _ => [piece]

theorem cleared_cases (piece : Piece) : (∃ fault, piece.role = .fault fault ∧
      piece.cleared = (piece.text.flatMap blankChar).map fun c => ⟨.blank, [c]⟩) ∨
    (∀ fault, piece.role ≠ .fault fault) ∧ piece.cleared = [piece] := by
  unfold cleared
  cases piece.role with
  | fault fault => exact .inl ⟨fault, rfl, rfl⟩
  | _ => exact .inr ⟨nofun, rfl⟩

theorem diagnostic?_of_not_fault {piece : Piece} (h : ∀ fault, piece.role ≠ .fault fault)
    (p q : Position) : piece.diagnostic? p q = none := by
  unfold diagnostic?
  split
  · rename_i fault hrole
    exact absurd hrole (h fault)
  · rfl

end Piece

theorem flatMap_text_blanks (cs : List Char) :
    (cs.map fun c => (⟨.blank, [c]⟩ : Piece)).flatMap Piece.text = cs := by
  induction cs with
  | nil => rfl
  | cons c cs ih => rw [List.map_cons, List.flatMap_cons, ih, List.singleton_append]

/-- Blank characters are pieces of their own. -/
theorem pieces_blanks {cs : List Char} (h : ∀ c ∈ cs, isSpace c = true) (ds : List Char) :
    pieces (cs ++ ds) = (cs.map fun c => ⟨.blank, [c]⟩) ++ pieces ds := by
  induction cs with
  | nil => rfl
  | cons c cs ih =>
    obtain ⟨hc, hcs⟩ := List.forall_mem_cons.1 h
    rw [List.cons_append, pieces_blank hc, ih hcs]
    rfl

/-- The text of pieces whose faults are blanked. -/
def clearedText (ps : List Piece) : List Char := (ps.flatMap Piece.cleared).flatMap Piece.text

theorem clearedText_cons (piece : Piece) (ps : List Piece) :
    clearedText (piece :: ps) = piece.cleared.flatMap Piece.text ++ clearedText ps := by
  unfold clearedText
  rw [List.flatMap_cons, List.flatMap_append]

/-- Where the texts part, there is a blank or nothing in the second one. -/
def StartsBlank (_ cs' : List Char) : Prop := ∀ c ∈ cs'.head?, isSpace c = true

theorem takeWhile_of_startsBlank {p : Char → Bool} {cs cs' : List Char} (h : StartsBlank cs cs')
    (hp : ∀ c, isSpace c = true → p c = false) : cs'.takeWhile p = [] := by
  cases cs' with
  | nil => rfl
  | cons c cs' =>
    apply List.takeWhile_cons_of_neg
    rw [hp c (h c rfl)]
    exact Bool.false_ne_true

theorem neutral_startsBlank : Neutral StartsBlank where
  name h _ := takeWhile_of_startsBlank h fun _ => Piece.isNamePart_of_isSpace
  digit h _ := takeWhile_of_startsBlank h fun _ => Piece.isDigit_of_isSpace
  mark h c hc := by
    rcases Piece.eq_of_isSpace (h c hc) with rfl | rfl | rfl | rfl <;> decide
  joined h d hd c := Piece.joined?_of_isSpace (h d hd) c

/-- A blanked text begins with a blank, and with a line feed if the text did. -/
theorem exists_blank_cons {cs : List Char} (h : cs ≠ []) : ∃ c ds, cs.flatMap blankChar = c :: ds ∧
    isSpace c = true ∧ (cs.head? = some '\n' → c = '\n') := by
  obtain ⟨d, es, rfl⟩ := List.exists_cons_of_ne_nil h
  obtain ⟨c, ds, hc⟩ := List.exists_cons_of_ne_nil (blankChar_ne_nil d)
  refine ⟨c, ds ++ es.flatMap blankChar, ?_, ?_, ?_⟩
  · rw [List.flatMap_cons, hc, List.cons_append]
  · apply isSpace_of_mem_blankChar (c := d)
    rw [hc]
    exact List.mem_cons_self
  · intro hd
    rw [Option.some.inj hd] at hc
    exact (List.cons.inj hc).1.symm

section

variable {ps : List Piece} (hne : ∀ piece ∈ ps, piece.text ≠ [])

include hne

/-- Pieces go on as they did up to the first fault. -/
theorem traces_clearedText : Traces StartsBlank (ps.flatMap Piece.text) (clearedText ps) := by
  induction ps with
  | nil => exact .stop nofun
  | cons piece ps ih =>
    obtain ⟨hpiece, hps⟩ := List.forall_mem_cons.1 hne
    rw [List.flatMap_cons, clearedText_cons]
    rcases piece.cleared_cases with ⟨fault, -, hcleared⟩ | ⟨-, hcleared⟩
    · obtain ⟨c, ds, hblank, hc, -⟩ := exists_blank_cons hpiece
      rw [hcleared, flatMap_text_blanks, hblank, List.cons_append]
      apply Traces.stop
      intro d hd
      obtain rfl := Option.some.inj hd
      exact hc
    · rw [hcleared, List.flatMap_singleton]
      exact (ih hps).append _

theorem endsAlike_clearedText : EndsAlike (ps.flatMap Piece.text) (clearedText ps) := by
  cases ps with
  | nil => exact ⟨fun _ => rfl, nofun⟩
  | cons piece ps =>
    have hpiece := hne piece List.mem_cons_self
    rw [List.flatMap_cons, clearedText_cons]
    refine ⟨fun h => absurd (List.append_eq_nil_iff.1 h).1 hpiece, fun hline => ?_⟩
    rw [List.head?_append_of_ne_nil _ hpiece] at hline
    rcases piece.cleared_cases with ⟨fault, -, hcleared⟩ | ⟨-, hcleared⟩
    · obtain ⟨c, ds, hblank, -, hc⟩ := exists_blank_cons hpiece
      rw [hcleared, flatMap_text_blanks, hblank, hc hline]
      rfl
    · rw [hcleared, List.flatMap_singleton, List.head?_append_of_ne_nil _ hpiece, hline]

end

/-- A text whose faults are blanked has the pieces that each piece becomes. -/
theorem pieces_clearedText (cs : List Char) :
    pieces (clearedText (pieces cs)) = (pieces cs).flatMap Piece.cleared := by
  fun_induction pieces cs with
  | case1 => exact pieces.eq_1
  | case2 c cs r ih =>
    have hne : ∀ piece ∈ pieces r.2, piece.text ≠ [] := fun _ => Scan.text_ne_nil_of_mem_pieces
    rw [clearedText_cons, List.flatMap_cons]
    rcases r.1.cleared_cases with ⟨fault, -, hcleared⟩ | ⟨-, hcleared⟩
    · rw [hcleared, flatMap_text_blanks, pieces_blanks, ih]
      intro d hd
      obtain ⟨_, -, hd⟩ := List.mem_flatMap.1 hd
      exact isSpace_of_mem_blankChar hd
    · have htraces := traces_clearedText hne
      have hends := endsAlike_clearedText hne
      rw [flatMap_text_pieces] at htraces hends
      rw [hcleared, List.flatMap_singleton, List.singleton_append,
        pieces_of_traces neutral_startsBlank htraces (.inr hends), ih]

/-! ## Tokens and bytes -/

namespace Scan

/-- What pieces become has their tokens and no faults. -/
theorem ofPieces_cleared (p : Position) (ps : List Piece) :
    ofPieces p (ps.flatMap Piece.cleared) = ⟨(ofPieces p ps).tokens, []⟩ := by
  induction ps generalizing p with
  | nil => rfl
  | cons piece ps ih =>
    rw [List.flatMap_cons]
    rcases piece.cleared_cases with ⟨fault, hrole, hcleared⟩ | ⟨hrole, hcleared⟩
    · have htoken : piece.token? p (p.after piece.text) = none := by
        unfold Piece.token?
        rw [hrole]
      have hlayout : ∀ blank ∈ piece.cleared, blank.IsLayout := by
        intro blank hblank
        rw [hcleared] at hblank
        obtain ⟨c, -, rfl⟩ := List.mem_map.1 hblank
        exact .inl rfl
      rw [ofPieces_layout hlayout, hcleared, flatMap_text_blanks, after_blank, ih, ofPieces, htoken]
      rfl
    · rw [hcleared, List.singleton_append, ofPieces, ih, ofPieces,
        Piece.diagnostic?_of_not_fault hrole]
      rfl

theorem covers_eq_false_of_lt {p : Position} {ps : List Piece} {offset : Nat}
    (h : offset < p.offset) : (faults p ps).any (·.covers offset) = false := by
  rw [List.any_eq_false]
  intro d hd
  rw [faults_eq] at hd
  obtain ⟨x, hx, hd⟩ := List.mem_filterMap.1 hd
  have hle := offset_le_of_mem_located hx
  unfold Piece.diagnostic? at hd
  split at hd
  · obtain rfl := Option.some.inj hd
    simp only [Diagnostic.covers, Option.any_some, decide_eq_true_eq]
    omega
  · cases hd

/-- The bytes of pieces whose faults are blanked are theirs, blanked where the faults are. -/
theorem blankBytes_faults (p : Position) (ps : List Piece) :
    blankBytes (faults p ps) p.offset (bytesOf (ps.flatMap Piece.text)) =
      bytesOf (clearedText ps) := by
  induction ps generalizing p with
  | nil => rfl
  | cons piece ps ih =>
    have hbehind : p.offset + (bytesOf piece.text).length = (p.after piece.text).offset := by
      rw [length_bytesOf, Position.offset_after]
    have hbefore : ∀ i < (bytesOf piece.text).length,
        (faults (p.after piece.text) ps).any (·.covers (p.offset + i)) = false := by
      intro i hi
      apply covers_eq_false_of_lt
      omega
    rw [List.flatMap_cons, bytesOf_append, blankBytes_append, clearedText_cons, bytesOf_append,
      hbehind, ← ih (p.after piece.text), faults]
    rcases piece.cleared_cases with ⟨fault, hrole, hcleared⟩ | ⟨hrole, hcleared⟩
    · -- the fault spans all bytes of this piece, and none behind it
      have hfault : piece.diagnostic? p (p.after piece.text) =
          some { cause := .lex fault
                 span := some ⟨p.offset, (p.after piece.text).offset⟩
                 line := some p.line } := by
        unfold Piece.diagnostic?
        rw [hrole]
      rw [hfault, hcleared, flatMap_text_blanks, bytesOf_blank, Option.toList_some,
        List.singleton_append]
      congr 1
      · apply blankBytes_of_covered
        intro i hi
        simp only [List.any_cons, Diagnostic.covers, Option.any_some, Bool.or_eq_true,
          decide_eq_true_eq]
        omega
      · apply blankBytes_congr
        intro i _
        simp [Diagnostic.covers]
    · rw [Piece.diagnostic?_of_not_fault hrole, hcleared, List.flatMap_singleton]
      congr 1
      exact (blankBytes_congr hbefore).trans (blankBytes_nil _ _)

end Scan

/-- Faults do not touch what is around them: if each byte of a text that a fault spans is
overwritten with a space, line feeds kept, the text has no faults, and its tokens are the same. -/
theorem scan_blanked (source : String) : ∃ blanked : String,
    blanked.toByteArray.data.toList =
        blankBytes (scan source).diagnostics 0 source.toByteArray.data.toList ∧
      scan blanked = ⟨(scan source).tokens, []⟩ := by
  refine ⟨.ofList (clearedText (pieces source.toList)), ?_, ?_⟩
  · have hbytes := Scan.blankBytes_faults .origin (pieces source.toList)
    rw [flatMap_text_pieces] at hbytes
    rw [toByteArray_eq_bytesOf, toByteArray_eq_bytesOf, String.toList_ofList, diagnostics_scan]
    exact hbytes.symm
  · rw [scan, String.toList_ofList, pieces_clearedText, Scan.ofPieces_cleared]
    rfl

end Scripting
