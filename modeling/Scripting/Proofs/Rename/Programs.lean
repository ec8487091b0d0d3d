import Scripting.Proofs.Move.Programs
import Scripting.Proofs.Rename.Grammar
import Scripting.Proofs.Rename.Text

/-!
# Programs with a parameter renamed

* `FunctionText.At.holds` : the range of a function holds its own tokens, and of the others at most
  a keyword;
* `Renaming.Swaps.writes` : tokens of the text with the name replaced stand in the places of those
  of the text;
* `Program.parse?_apply` : a program with a parameter renamed has the same statements, but for spans
  and the name replaced in the function.
-/

namespace Scripting

set_option autoImplicit false

/-! ## Tokens in the range of a function -/

section

variable {F : FunctionText} {before own behind : List Token}

/-- Where tokens come one behind the other, each with a byte at least, the range of a function holds
its own tokens and no name besides. -/
theorem FunctionText.At.holds (h : F.At before own)
    (sorted : (before ++ own ++ behind).Pairwise fun t u => t.span.stop ≤ u.span.start)
    (long : ∀ t ∈ before ++ own ++ behind, t.span.start < t.span.stop) :
    (∀ t ∈ before, t.kind = .identifier → ¬ F.range.Holds t.span.start) ∧
      (∀ t ∈ own, F.range.Holds t.span.start) ∧
      ∀ t ∈ behind, ¬ F.range.Holds t.span.start := by
  obtain ⟨first, hfirst, hstart⟩ := h.start
  obtain ⟨last, hlast, hstop⟩ := h.stop
  obtain ⟨ts, rfl⟩ := List.getLast?_eq_some_iff.1 hfirst
  obtain ⟨us, rfl⟩ := List.getLast?_eq_some_iff.1 hlast
  obtain ⟨hfront, -, hbehind⟩ := List.pairwise_append.1 sorted
  obtain ⟨hbefore, hinner, hown⟩ := List.pairwise_append.1 hfront
  have hlong : ∀ t, t ∈ ts ++ [first] ∨ t ∈ us ++ [last] → t.span.start < t.span.stop :=
    fun t ht => long t (List.mem_append_left _ (List.mem_append.2 ht))
  have hfirst := hlong first (.inl List.mem_concat_self)
  have hlast := hlong last (.inr List.mem_concat_self)
  unfold Span.Holds
  refine ⟨fun t ht hkind => ?_, fun t ht => ?_, fun t ht => ?_⟩
  · have := hlong t (.inl ht)
    rcases List.mem_append.1 ht with hmem | hmem
    · have := (List.pairwise_append.1 hbefore).2.2 t hmem first List.mem_cons_self
      omega
    · obtain rfl := List.mem_singleton.1 hmem
      rcases hstart with hstart | ⟨-, hname⟩
      · omega
      · exact absurd hkind hname
  · have := hlong t (.inr ht)
    have := hown first List.mem_concat_self t ht
    rcases List.mem_append.1 ht with hmem | hmem
    · have := (List.pairwise_append.1 hinner).2.2 t hmem last List.mem_cons_self
      omega
    · obtain rfl := List.mem_singleton.1 hmem
      omega
  · have := hbehind last (List.mem_append_right _ List.mem_concat_self) t ht
    omega

end

/-! ## Tokens with the name replaced -/

section

variable {r : Renaming} {range : Span} {t t' : Token}

theorem Renaming.Swaps.writes_true (h : r.Swaps range t t') (hrange : range.Holds t.span.start)
    (fresh : t.lexeme ≠ r.new) : r.Writes true t t' where
  kind := h.kind
  lexeme := by
    rw [h.lexeme, name]
    split <;> simp_all
  literal := h.literal
  line := h.line
  free _ := fresh

theorem Renaming.Swaps.writes_false (h : r.Swaps range t t')
    (hrange : t.kind = .identifier → ¬ range.Holds t.span.start) : r.Writes false t t' where
  kind := h.kind
  lexeme := by
    rw [h.lexeme, if_neg fun hhit => hrange hhit.1 hhit.2.2, name_false, ite_self]
  literal := h.literal
  line := h.line
  free := free_false _

end

/-- Where no element comes twice, related elements are the images under a function. -/
theorem exists_eq_map_of_forall₂ {α β : Type} [DecidableEq α] [Inhabited β] {R : α → β → Prop}
    {as : List α} {bs : List β} (h : List.Forall₂ R as bs) (nodup : as.Nodup) :
    ∃ φ : α → β, bs = as.map φ ∧ ∀ a ∈ as, R a (φ a) := by
  induction h with
  | nil => exact ⟨fun _ => default, rfl, nofun⟩
  | @cons a b as bs hab _ ih =>
    rw [List.nodup_cons] at nodup
    obtain ⟨φ, rfl, hφ⟩ := ih nodup.2
    have hother : ∀ c ∈ as, Function.update φ a b c = φ c := by
      intro c hc
      rw [Function.update_of_ne]
      rintro rfl
      exact nodup.1 hc
    refine ⟨Function.update φ a b, ?_, ?_⟩
    · rw [List.map_cons, Function.update_self, List.map_congr_left hother]
    · rw [List.forall_mem_cons, Function.update_self]
      refine ⟨hab, fun c hc => ?_⟩
      rw [hother c hc]
      exact hφ c hc

/-! ## Programs -/

/-- A program with a parameter renamed to a name that is not in it has the same statements, but for
spans and the name replaced in the function. -/
theorem Program.parse?_apply {source : String} {ss : List Stmt} (parsed : parse? source = .ok ss)
    {r : Renaming} {F : FunctionText} (hF : F ∈ Stmt.functionsOfAll ss) (fits : r.Fits F)
    {literal : Option Literal} (hnew : Word r.new.toList .identifier literal)
    (fresh : ∀ t ∈ (scan source).tokens, t.lexeme ≠ r.new) :
    ∃ ss', parse? (r.apply F.range source) = .ok ss' ∧ Stmt.RenamesAll r false ss ss' := by
  obtain ⟨hscan, hderives⟩ := (parse?_eq_ok source ss).1 parsed
  have hswaps := words_apply F.range hnew source
  have hpairs := pairwise_tokens_scan source
  have hlong : ∀ t ∈ Scan.words .origin (pieces source.toList), t.span.start < t.span.stop :=
    fun t => start_lt_stop_of_mem_words source
  rw [tokens_scan] at hpairs fresh
  replace hpairs := (List.pairwise_append.1 hpairs).1
  replace fresh := (List.forall_mem_append.1 fresh).1
  have hnodup : (Scan.words .origin (pieces source.toList)).Nodup := by
    refine hpairs.imp ?_
    rintro t _ ⟨hlt, -⟩ rfl
    exact Nat.lt_irrefl _ hlt
  obtain ⟨φ, hwords, hφ⟩ := exists_eq_map_of_forall₂ hswaps hnodup
  obtain ⟨before, own, behind, hsplit, hat, hcarries⟩ := hderives.carries.within F hF fits
  rw [hsplit] at hpairs hlong fresh hφ
  obtain ⟨hbefore, hown, hbehind⟩ := hat.holds (hpairs.imp And.right) hlong
  simp only [List.forall_mem_append] at fresh hφ
  obtain ⟨us, ss', hus, hderives', hr⟩ := hcarries φ
    (fun t ht => (hφ.1.1 t ht).writes_false (hbefore t ht))
    (fun t ht => (hφ.1.2 t ht).writes_true (hown t ht) (fresh.1.2 t ht))
    (fun t ht => (hφ.2 t ht).writes_false fun _ => hbehind t ht)
  refine ⟨ss', (parse?_eq_ok _ _).2 ⟨diagnostics_apply F.range hnew source hscan, ?_⟩, hr⟩
  rw [hwords, hus]
  exact hderives'

end Scripting
