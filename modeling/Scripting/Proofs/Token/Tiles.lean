import Scripting.Proofs.Token.Roles

/-!
# Texts and their tokens

* `Scan.located` : pieces with the places where they begin (`Scan.mem_located`);
* `Token.Stands`, `Diagnostic.Stands` : what a token and a fault say is so in the text;
* `Tile`, `Tiling` : spans with roles that fit, one and only one of them over each byte of a text;
* `scan_exact` : the tokens and the faults of a text are those of a tiling of it.
-/

namespace Scripting

set_option autoImplicit false

open Position (byteCount)

/-! ## Bytes -/

theorem utf8ByteSize_ofList (cs : List Char) : (String.ofList cs).utf8ByteSize = byteCount cs := by
  induction cs with
  | nil => rfl
  | cons c cs ih =>
    rw [String.ofList_cons, String.utf8ByteSize_append, String.utf8ByteSize_singleton, ih,
      byteCount]

theorem byteCount_append (cs ds : List Char) :
    byteCount (cs ++ ds) = byteCount cs + byteCount ds := by
  induction cs with
  | nil => exact (Nat.zero_add _).symm
  | cons c cs ih => rw [List.cons_append, byteCount, ih, byteCount, Nat.add_assoc]

theorem byteCount_pos {cs : List Char} (h : cs ≠ []) : 0 < byteCount cs := by
  obtain ⟨c, cs, rfl⟩ := List.exists_cons_of_ne_nil h
  exact Nat.add_pos_left c.utf8Size_pos _

/-- The place behind a text. -/
theorem Position.after_origin (text : String) :
    origin.after text.toList = ⟨text.utf8ByteSize, 1 + text.toList.count '\n'⟩ := by
  have hoffset := offset_after origin text.toList
  have hline := line_after origin text.toList
  rw [← utf8ByteSize_ofList, String.ofList_toList, show origin.offset = 0 from rfl,
    Nat.zero_add] at hoffset
  exact congrArg₂ Position.mk hoffset hline

/-! ## Pieces at their places -/

namespace Scan

/-- The pieces that follow each other from the place `p` on, with the places where they begin. -/
def located (p : Position) : List Piece → List (Position × Piece)
  | [] => []
  | piece :: rest => (p, piece) :: located (p.after piece.text) rest

/-- The place behind a piece. -/
def behind (x : Position × Piece) : Position := x.1.after x.2.text

theorem words_eq (p : Position) (ps : List Piece) :
    words p ps = (located p ps).filterMap fun x => x.2.token? x.1 (behind x) := by
  induction ps generalizing p with
  | nil => rfl
  | cons piece ps ih =>
    rw [words, ih, located, List.filterMap_cons, behind]
    cases piece.token? p (p.after piece.text) <;> rfl

theorem faults_eq (p : Position) (ps : List Piece) :
    faults p ps = (located p ps).filterMap fun x => x.2.diagnostic? x.1 (behind x) := by
  induction ps generalizing p with
  | nil => rfl
  | cons piece ps ih =>
    rw [faults, ih, located, List.filterMap_cons, behind]
    cases piece.diagnostic? p (p.after piece.text) <;> rfl

/-- A piece begins behind those before it. -/
theorem mem_located {p : Position} {ps : List Piece} {x : Position × Piece}
    (h : x ∈ located p ps) :
    ∃ qs rs, ps = qs ++ x.2 :: rs ∧ x.1 = p.after (qs.flatMap Piece.text) := by
  induction ps generalizing p with
  | nil => cases h
  | cons piece ps ih =>
    rcases List.mem_cons.1 h with rfl | h
    · exact ⟨[], ps, rfl, rfl⟩
    · obtain ⟨qs, rs, rfl, hplace⟩ := ih h
      refine ⟨piece :: qs, rs, rfl, ?_⟩
      rw [hplace, List.flatMap_cons, Position.after_append]

theorem offset_le_of_mem_located {p : Position} {ps : List Piece} {x : Position × Piece}
    (h : x ∈ located p ps) : p.offset ≤ x.1.offset := by
  obtain ⟨qs, rs, -, hplace⟩ := mem_located h
  rw [hplace, Position.offset_after]
  exact Nat.le_add_right ..

theorem offset_behind_le_of_mem_located {p : Position} {ps : List Piece} {x : Position × Piece}
    (h : x ∈ located p ps) : (behind x).offset ≤ p.offset + byteCount (ps.flatMap Piece.text) := by
  obtain ⟨qs, rs, rfl, hplace⟩ := mem_located h
  rw [behind, hplace, Position.offset_after, Position.offset_after, List.flatMap_append,
    List.flatMap_cons, byteCount_append, byteCount_append]
  omega

/-- Each piece begins where those before it have ended. -/
theorem pairwise_located (p : Position) (ps : List Piece) :
    (located p ps).Pairwise fun x y => (behind x).offset ≤ y.1.offset := by
  induction ps generalizing p with
  | nil => exact .nil
  | cons piece ps ih => exact .cons (fun _ hy => offset_le_of_mem_located hy) (ih _)

/-- A byte belongs to one and only one piece. -/
theorem existsUnique_located {p : Position} {ps : List Piece} {b : Nat} (hfrom : p.offset ≤ b)
    (hto : b < p.offset + byteCount (ps.flatMap Piece.text)) :
    ∃! x, x ∈ located p ps ∧ x.1.offset ≤ b ∧ b < (behind x).offset := by
  induction ps generalizing p with
  | nil => exact absurd hfrom (Nat.not_le_of_lt hto)
  | cons piece ps ih =>
    by_cases hb : b < (p.after piece.text).offset
    · refine ⟨(p, piece), ⟨List.mem_cons_self, hfrom, hb⟩, ?_⟩
      rintro y ⟨hy, hstart, -⟩
      rcases List.mem_cons.1 hy with rfl | hy
      · rfl
      · exact absurd (offset_le_of_mem_located hy) (by omega)
    · have hbehind : b < (p.after piece.text).offset + byteCount (ps.flatMap Piece.text) := by
        rw [List.flatMap_cons, byteCount_append] at hto
        rw [Position.offset_after]
        omega
      obtain ⟨x, ⟨hx, hstart, hstop⟩, hunique⟩ := ih (Nat.le_of_not_lt hb) hbehind
      refine ⟨x, ⟨List.mem_cons_of_mem _ hx, hstart, hstop⟩, ?_⟩
      rintro y ⟨hy, hystart, hystop⟩
      rcases List.mem_cons.1 hy with rfl | hy
      · exact absurd hystop hb
      · exact hunique y ⟨hy, hystart, hystop⟩

/-- The tokens of pieces from a place on, with the place where the last of them ends. -/
theorem tokens_ofPieces_eq (p : Position) (ps : List Piece) : (ofPieces p ps).tokens =
    words p ps ++ [.ending (p.after (ps.flatMap Piece.text)).line
      (p.after (ps.flatMap Piece.text)).offset] := by
  induction ps generalizing p with
  | nil => rfl
  | cons piece ps ih =>
    rw [ofPieces, words, List.append_assoc, List.flatMap_cons, Position.after_append, ← ih]

end Scan

/-! ## What tokens and faults say -/

/-- The token is a word of the text where its span says, of its kind and with its literal and no
others, which ends on its line, and no longer word begins there. -/
def Token.Stands (source : String) (t : Token) : Prop :=
  ∃ before behind : String, source = before ++ t.lexeme ++ behind ∧
    t.span = ⟨before.utf8ByteSize, before.utf8ByteSize + t.lexeme.utf8ByteSize⟩ ∧
    t.line = 1 + (before ++ t.lexeme).toList.count '\n' ∧
    (∀ kind literal, Word t.lexeme.toList kind literal ↔ kind = t.kind ∧ literal = t.literal) ∧
    Longest t.lexeme.toList behind.toList

/-- The diagnostic tells a fault of a part of the text, with its span and the line on which the part
begins. -/
def Diagnostic.Stands (source : String) (d : Diagnostic) : Prop :=
  ∃ (before text behind : String) (fault : LexFault), source = before ++ text ++ behind ∧
    d = { cause := .lex fault
          span := some ⟨before.utf8ByteSize, before.utf8ByteSize + text.utf8ByteSize⟩
          line := some (1 + before.toList.count '\n') } ∧
    (Piece.Role.fault fault).Fits text.toList behind.toList

/-- A span of a text with its role. -/
structure Tile where
  span : Span
  role : Piece.Role

namespace Tile

/-- The role fits what is in the span and behind it, and that is at least one character. -/
def Stands (source : String) (tile : Tile) : Prop :=
  ∃ before text behind : String, source = before ++ text ++ behind ∧ text ≠ "" ∧
    tile.span = ⟨before.utf8ByteSize, before.utf8ByteSize + text.utf8ByteSize⟩ ∧
    tile.role.Fits text.toList behind.toList

/-- The kind and the literal of a word, with its span. -/
def word? : Tile → Option (Span × Kind × Option Literal)
  | ⟨span, .word kind literal⟩ => some (span, kind, literal)
  | _ => none

/-- A fault with its span. -/
def fault? : Tile → Option (Option Span × Cause)
  | ⟨span, .fault fault⟩ => some (some span, .lex fault)
  | _ => none

end Tile

/-- Each tile stands in the text, and each byte of the text belongs to one and only one tile. -/
structure Tiling (source : String) (tiles : List Tile) : Prop where
  stands : ∀ tile ∈ tiles, tile.Stands source
  covers : ∀ b < source.utf8ByteSize, ∃! tile, tile ∈ tiles ∧ tile.span.start ≤ b ∧
    b < tile.span.stop

/-! ## The pieces of a text -/

namespace Scan

variable {source : String} {x : Position × Piece}

/-- The pieces of a text at their places. -/
def ofText (source : String) : List (Position × Piece) := located .origin (pieces source.toList)

/-- A piece of a text stands between what is before it and what is behind it. -/
theorem split_of_mem (h : x ∈ ofText source) :
    ∃ before behind : String, source = before ++ String.ofList x.2.text ++ behind ∧
      x.1 = ⟨before.utf8ByteSize, 1 + before.toList.count '\n'⟩ ∧
      x.2.role.Fits x.2.text behind.toList := by
  obtain ⟨qs, rs, hsplit, hplace⟩ := mem_located h
  have htext := flatMap_text_pieces source.toList
  rw [hsplit, List.flatMap_append, List.flatMap_cons] at htext
  refine ⟨.ofList (qs.flatMap Piece.text), .ofList (rs.flatMap Piece.text), ?_, ?_, ?_⟩
  · rw [← String.ofList_append, ← String.ofList_append, List.append_assoc, htext,
      String.ofList_toList]
  · rw [hplace, ← Position.after_origin, String.toList_ofList]
  · rw [String.toList_ofList]
    exact fits_pieces hsplit

theorem text_ne_nil_of_mem_pieces {cs : List Char} {piece : Piece} (h : piece ∈ pieces cs) :
    piece.text ≠ [] := by
  fun_induction pieces cs with
  | case1 => cases h
  | case2 c cs r ih =>
    rcases List.mem_cons.1 h with rfl | h
    · exact Piece.read_ne_nil c cs
    · exact ih h

theorem text_ne_nil (h : x ∈ ofText source) : x.2.text ≠ [] := by
  obtain ⟨qs, rs, hsplit, -⟩ := mem_located h
  exact text_ne_nil_of_mem_pieces (hsplit ▸ List.mem_append_right _ List.mem_cons_self)

theorem offset_behind (x : Position × Piece) :
    (behind x).offset = x.1.offset + (String.ofList x.2.text).utf8ByteSize := by
  rw [behind, Position.offset_after, utf8ByteSize_ofList]

theorem token_stands (h : x ∈ ofText source) {t : Token}
    (ht : x.2.token? x.1 (behind x) = some t) : t.Stands source := by
  obtain ⟨before, rest, hsource, hplace, hfits⟩ := split_of_mem h
  unfold Piece.token? at ht
  split at ht
  · rename_i kind literal hrole
    cases ht
    rw [hrole] at hfits
    refine ⟨before, rest, hsource, ?_, ?_, ?_, ?_⟩
    · show Span.mk x.1.offset (behind x).offset = _
      rw [offset_behind, hplace]
    · show (behind x).line = _
      rw [behind, Position.line_after, hplace, String.toList_append, String.toList_ofList,
        List.count_append, Nat.add_assoc]
    · intro kind' literal'
      rw [String.toList_ofList]
      constructor
      · exact fun h => h.unique hfits.1
      · rintro ⟨rfl, rfl⟩
        exact hfits.1
    · rw [String.toList_ofList]
      exact hfits.2
  · cases ht

theorem diagnostic_stands (h : x ∈ ofText source) {d : Diagnostic}
    (hd : x.2.diagnostic? x.1 (behind x) = some d) : d.Stands source := by
  obtain ⟨before, rest, hsource, hplace, hfits⟩ := split_of_mem h
  unfold Piece.diagnostic? at hd
  split at hd
  · rename_i fault hrole
    cases hd
    rw [hrole] at hfits
    refine ⟨before, .ofList x.2.text, rest, fault, hsource, ?_, ?_⟩
    · rw [offset_behind, hplace]
    · rw [String.toList_ofList]
      exact hfits
  · cases hd

/-- The tile that a piece is. -/
def tile (x : Position × Piece) : Tile := ⟨⟨x.1.offset, (behind x).offset⟩, x.2.role⟩

theorem tile_stands (h : x ∈ ofText source) : (tile x).Stands source := by
  obtain ⟨before, rest, hsource, hplace, hfits⟩ := split_of_mem h
  refine ⟨before, .ofList x.2.text, rest, hsource, ?_, ?_, ?_⟩
  · intro hempty
    refine text_ne_nil h ?_
    rw [← String.toList_ofList (l := x.2.text), hempty]
    rfl
  · rw [tile, offset_behind, hplace]
  · rw [String.toList_ofList]
    exact hfits

theorem utf8ByteSize_eq (source : String) : source.utf8ByteSize =
    Position.origin.offset + byteCount ((pieces source.toList).flatMap Piece.text) := by
  rw [flatMap_text_pieces, ← utf8ByteSize_ofList, String.ofList_toList]
  exact (Nat.zero_add _).symm

theorem tiling (source : String) : Tiling source ((ofText source).map tile) where
  stands := by
    intro t ht
    obtain ⟨x, hx, rfl⟩ := List.mem_map.1 ht
    exact tile_stands hx
  covers := by
    intro b hb
    rw [utf8ByteSize_eq] at hb
    obtain ⟨x, ⟨hx, hspan⟩, hunique⟩ := existsUnique_located (Nat.zero_le b) hb
    refine ⟨tile x, ⟨List.mem_map_of_mem hx, hspan⟩, ?_⟩
    rintro _ ⟨ht, hspan'⟩
    obtain ⟨y, hy, rfl⟩ := List.mem_map.1 ht
    rw [hunique y ⟨hy, hspan'⟩]

end Scan

/-! ## Tokens and faults -/

open Scan

variable (source : String)

/-- The tokens of a text are its words, and then one that stands for the end. -/
theorem tokens_scan : (scan source).tokens = words .origin (pieces source.toList) ++
    [.ending (1 + source.toList.count '\n') source.utf8ByteSize] := by
  rw [scan, tokens_ofPieces_eq, flatMap_text_pieces, Position.after_origin]

/-- The token of a piece spans it. -/
theorem span_of_token? {source : String} {x : Position × Piece} (hx : x ∈ ofText source) {t : Token}
    (ht : x.2.token? x.1 (behind x) = some t) :
    t.span = ⟨x.1.offset, (behind x).offset⟩ ∧ x.1.offset < (behind x).offset := by
  unfold Piece.token? at ht
  split at ht
  · cases ht
    refine ⟨rfl, ?_⟩
    rw [behind, Position.offset_after]
    exact Nat.lt_add_of_pos_right (byteCount_pos (text_ne_nil hx))
  · cases ht

/-- A word spans at least one byte. -/
theorem start_lt_stop_of_mem_words {t : Token}
    (ht : t ∈ words .origin (pieces source.toList)) : t.span.start < t.span.stop := by
  rw [words_eq] at ht
  obtain ⟨x, hx, ht⟩ := List.mem_filterMap.1 ht
  obtain ⟨ht, hlt⟩ := span_of_token? hx ht
  rwa [ht]

/-- The spans of tokens come one behind the other. -/
theorem pairwise_tokens_scan : (scan source).tokens.Pairwise fun t u =>
    t.span.start < u.span.start ∧ t.span.stop ≤ u.span.start := by
  rw [tokens_scan, words_eq, List.pairwise_append]
  refine ⟨?_, List.pairwise_singleton .., ?_⟩
  · rw [List.pairwise_filterMap]
    refine (pairwise_located _ _).imp_of_mem fun {x y} hx hy hle t ht u hu => ?_
    obtain ⟨ht, hlt⟩ := span_of_token? hx ht
    obtain ⟨hu, -⟩ := span_of_token? hy hu
    rw [ht, hu]
    exact ⟨Nat.lt_of_lt_of_le hlt hle, hle⟩
  · intro t ht u hu
    obtain ⟨x, hx, ht⟩ := List.mem_filterMap.1 ht
    obtain ⟨ht, hlt⟩ := span_of_token? hx ht
    have hle := offset_behind_le_of_mem_located hx
    rw [← utf8ByteSize_eq] at hle
    rw [List.mem_singleton.1 hu, ht]
    exact ⟨Nat.lt_of_lt_of_le hlt hle, hle⟩

/-- The tokens and the faults of a text are exact. The tokens are words of the text, one behind the
other, each as long as it can be, with their kinds, literals and lines, and then one that stands for
the end of the text. Together with the blank characters, the comments, lone bars and ampersands, and
the faults, they tile the text. -/
theorem scan_exact : ∃ (words : List Token) (tiles : List Tile),
    (scan source).tokens =
        words ++ [.ending (1 + source.toList.count '\n') source.utf8ByteSize] ∧
      (∀ t ∈ words, t.kind ≠ .endOfInput ∧ t.Stands source) ∧
      ((scan source).tokens.Pairwise fun t u =>
        t.span.start < u.span.start ∧ t.span.stop ≤ u.span.start) ∧
      (∀ d ∈ (scan source).diagnostics, d.Stands source) ∧
      Tiling source tiles ∧
      words.map (fun t => (t.span, t.kind, t.literal)) = tiles.filterMap Tile.word? ∧
      (scan source).diagnostics.map (fun d => (d.span, d.cause)) =
        tiles.filterMap Tile.fault? := by
  refine ⟨words .origin (pieces source.toList), (ofText source).map tile, tokens_scan source, ?_,
    pairwise_tokens_scan source, ?_, tiling source, ?_, ?_⟩
  · intro t ht
    refine ⟨kind_of_mem_words (fun _ => isInside_pieces) ht, ?_⟩
    rw [words_eq] at ht
    obtain ⟨x, hx, ht⟩ := List.mem_filterMap.1 ht
    exact token_stands hx ht
  · intro d hd
    rw [diagnostics_scan, faults_eq] at hd
    obtain ⟨x, hx, hd⟩ := List.mem_filterMap.1 hd
    exact diagnostic_stands hx hd
  · rw [words_eq, List.map_filterMap, List.filterMap_map]
    refine congrFun (congrArg List.filterMap (funext fun x => ?_)) _
    obtain ⟨p, role, text⟩ := x
    cases role <;> rfl
  · rw [diagnostics_scan, faults_eq, List.map_filterMap, List.filterMap_map]
    refine congrFun (congrArg List.filterMap (funext fun x => ?_)) _
    obtain ⟨p, role, text⟩ := x
    cases role <;> rfl

end Scripting
