import Scripting.Proofs.Control.Faults
import Scripting.Proofs.Machine.Likeness
import Scripting.Proofs.Places.Sessions
import Scripting.Proofs.Quotes.Pointing
import Scripting.Proofs.Quotes.Reports

/-!
# What runs report

* `Scan.pointsInto`, `Program.read_pointsInto` : the faults of the words of a text, and those of
  their arrangement, point into it;
* `Read texts runs` : the programs of a session were read from texts;
* `Session.fault_pointsInto` : in a session, a fault of a run points into its text or into one that
  was run before;
* `Interpreter.run_points_truly` : whatever a new interpreter reports of a text points into it, and
  quotes the line that it points at.
-/

namespace Scripting

set_option autoImplicit false

/-! ## Faults of words and of their arrangement -/

variable {source : String}

/-- The faults of the words of a text point into it. -/
theorem Scan.pointsInto : ∀ d ∈ (scan source).diagnostics, d.PointsInto source := by
  intro d hd
  rw [diagnostics_scan, faults_eq] at hd
  obtain ⟨x, hx, hd⟩ := List.mem_filterMap.1 hd
  exact (diagnostic_stands hx hd).pointsInto

theorem endOf_tokens_scan : endOf (scan source).tokens ∈ (scan source).tokens := by
  unfold endOf
  split
  · rename_i t ht
    exact List.mem_of_find?_eq_some ht
  · rename_i hnone
    rw [List.find?_eq_none] at hnone
    have hmem : Token.ending (1 + source.toList.count '\n') source.utf8ByteSize ∈
        (scan source).tokens := mem_tokens_scan.2 (.inr rfl)
    exact absurd rfl (of_decide_eq_false (eq_false_of_ne_true (hnone _ hmem)))

/-- The faults of the arrangement of the tokens of a text point into it. -/
theorem Program.read_pointsInto :
    ∀ d ∈ (read (scan source).tokens).diagnostics, d.PointsInto source := by
  intro d hd
  have hahead : ∀ t ∈ beforeEnd (scan source).tokens, t ∈ (scan source).tokens :=
    fun t ht => (List.takeWhile_sublist _).subset ht
  obtain ⟨fault, t, ht, rfl⟩ :=
    read_blames (S := (· ∈ (scan source).tokens)) endOf_tokens_scan hahead d hd
  exact Token.pointsInto ht nofun nofun

/-- The faults for which a text is rejected point into it. -/
theorem Program.pointsInto_of_rejected {ds : List Diagnostic} (h : parse? source = .error ds) :
    ∀ d ∈ ds, d.PointsInto source := by
  rw [parse?_eq] at h
  split at h
  · unfold result at h
    split at h
    · cases h
    · cases h
      exact read_pointsInto
  · cases h
    exact Scan.pointsInto

/-! ## Faults of running programs -/

/-- The programs were read from the texts. -/
def Read (texts : List String) (runs : List Run) : Prop :=
  ∀ r ∈ runs, ∃ text ∈ texts, Program.parse? text = .ok r.statements

/-- Whatever lies in programs that were read from texts is as the grammar makes it of the words of
one of them. -/
theorem LiesIn.formed {texts : List String} {runs : List Run} (read : Read texts runs) {σ : Site}
    (h : LiesIn runs σ) : ∃ text ∈ texts,
      σ.part.Formed (· ∈ Scan.words .origin (pieces text.toList)) := by
  obtain ⟨r, hr, hlies⟩ := h
  obtain ⟨text, htext, parsed⟩ := read r hr
  exact ⟨text, htext, Program.formed_of_parse? parsed _ σ hlies⟩

theorem Stmt.keyword?_of_strayAt? {T : List Point} {s : Stmt} {fault : RuntimeFault}
    {keyword : Token} (h : s.strayAt? T = some (fault, keyword)) : s.keyword? = some keyword := by
  unfold strayAt? at h
  cases s <;> simp only [stray?] at h <;> first | cases h | skip
  all_goals
    split at h
    · cases h
    · cases h
      rfl

namespace Session

variable {config : Config} {runs : List Run} {i : Interpreter} {texts : List String}

/-- In a session, a fault of a run points into its text or into one that was run before. -/
theorem fault_pointsInto (session : Session config runs i) (standard : config.host = .standard)
    (read : Read texts runs) {fuel : Nat} {d : Diagnostic}
    (hrun : (i.run fuel source).1 = .fault d) : ∃ text ∈ source :: texts, d.PointsInto text := by
  cases parsed : Program.parse? source with
  | error ds => exact absurd hrun ((i.run_of_rejected fuel parsed).2 d)
  | ok ss =>
    have read' : Read (source :: texts) (runs ++ [i.runOf ss]) := by
      refine List.forall_mem_append.2 ⟨fun r hr => ?_, List.forall_mem_singleton.2 ?_⟩
      · obtain ⟨text, htext, hr⟩ := read r hr
        exact ⟨text, List.mem_cons_of_mem _ htext, hr⟩
      · exact ⟨source, List.mem_cons_self, parsed⟩
    have placed {p : Point} {around : List Point}
        (trail : Trail i.config (i.opening fuel source ss) (p :: around)) :
        ∃ kept, Placed (runs ++ [i.runOf ss]) kept p := by
      obtain ⟨kept, reaches⟩ := trail.reaches
      rw [session.config_eq] at reaches
      exact ⟨kept, session.placed standard parsed reaches⟩
    rcases (Interpreter.halts_of_run parsed hrun).reported with ⟨f, vs, hfault⟩ |
      ⟨e, n, m, around, cause, mark, trail, hmark, rfl, -⟩ |
      ⟨T, s, m', fault, keyword, ⟨trail, -⟩, stray, rfl⟩
    · rw [session.config_eq, standard] at hfault
      rcases Host.standard_eq f vs with heq | ⟨text, heq⟩ | heq <;>
        exact absurd (heq.symm.trans hfault) nofun
    · obtain ⟨kept, W, Γ, -, hlies, -⟩ := placed trail
      obtain ⟨text, htext, formed⟩ := LiesIn.formed read' hlies
      exact ⟨text, htext, (formed.marked mark hmark).pointsInto cause⟩
    · obtain ⟨kept, W, Γ, -, hlies, -⟩ := placed trail
      obtain ⟨text, htext, formed⟩ := LiesIn.formed read' hlies
      have hkeyword := formed.marked keyword (Stmt.keyword?_of_strayAt? stray)
      exact ⟨text, htext, Token.Marks.pointsInto (.inl hkeyword) fault⟩

end Session

/-! ## Runs of texts -/

namespace Interpreter

/-- What a run reports are the faults for which its text is rejected, or its own fault. -/
theorem reported_cases (i : Interpreter) (fuel : Nat) {d : Diagnostic}
    (hd : d ∈ (i.run fuel source).1.diagnostics) :
    (∃ ds, Program.parse? source = .error ds ∧ d ∈ ds) ∨ (i.run fuel source).1 = .fault d := by
  cases parsed : Program.parse? source with
  | error ds =>
    refine .inl ⟨ds, rfl, ?_⟩
    rcases i.outcome_of_rejected fuel parsed with hrun | hrun <;> rwa [hrun] at hd
  | ok ss =>
    refine .inr ?_
    rw [run_eq_ending parsed] at hd ⊢
    revert hd
    cases runProgram i.config fuel ss (i.opening fuel source ss).machine with
    | ok _ m => exact nofun
    | error h m =>
      cases h with
      | fault d' => exact fun hd => congrArg Outcome.fault (List.mem_singleton.1 hd).symm
      | io | outOfFuel => exact nofun

/-- Whatever a new interpreter reports of a text points into it, and quotes the line that it points
at. -/
theorem run_points_truly (config : Config) (standard : config.host = .standard)
    (scriptName : String) (sink : Sink) (fuel : Nat) (source : String) :
    ∀ d ∈ ((new config scriptName sink).run fuel source).1.diagnostics, d.PointsInto source ∧
      ∃ number, d.line = some number ∧ d.Quotes source number := by
  intro d hd
  have hpoints : d.PointsInto source := by
    rcases reported_cases _ fuel hd with ⟨ds, rejected, hd⟩ | hrun
    · exact Program.pointsInto_of_rejected rejected d hd
    · have read : Read [] [] := List.forall_mem_nil _
      obtain ⟨text, htext, hpoints⟩ :=
        (Session.new scriptName sink).fault_pointsInto standard read hrun
      rwa [List.mem_singleton.1 htext] at hpoints
  exact ⟨hpoints, hpoints.quotes⟩

/-- A fault at an operator that also assigns, behind a string that ends on its line. -/
theorem run_points_truly_at_operator :
    let source := "// \u00e9\r\nlet s = \"a\nb\";  s -= 1;\r\n"
    let d : Diagnostic :=
      { cause := .runtime .operandsNotNumbers, span := some ⟨25, 27⟩, line := some 3
        location := some (.lexeme "-") }
    ((new {} "script" {}).run 30 source).1 = .fault d ∧ d.PointsInto source ∧
      d.Quotes source 3 := by
  intro source d
  have hrun : ((new {} "script" {}).run 30 source).1 = .fault d := by decide +kernel
  have hmem : d ∈ ((new {} "script" {}).run 30 source).1.diagnostics := by
    rw [hrun]
    exact List.mem_singleton_self d
  obtain ⟨hpoints, number, hline, hquotes⟩ :=
    run_points_truly {} rfl "script" {} 30 source d hmem
  obtain rfl : 3 = number := Option.some.inj hline
  exact ⟨hrun, hpoints, hquotes⟩

end Interpreter

end Scripting
