import Scripting.CommandLine.Session
import Scripting.Proofs.Quotes.Runs

/-!
# Quotes in sessions

* `Interpreter.after` : the interpreter behind runs of texts, one after the other;
* `Interpreter.after_fault_quoted` : a fault points into the text that is run or into one that was
  run before, and that text has the line in which the token stands;
* `CommandLine.Session.fault_misquoted` : a session of lines quotes the line that is run, also for a
  fault of a function that an earlier line defines.

The number of a line says nothing of the text that it belongs to, and functions are kept longer than
the texts that they were read from.
-/

set_option autoImplicit false

namespace Scripting.Interpreter

/-- The interpreter behind runs of texts, each with its fuel. -/
def after (i : Interpreter) (entries : List (Nat × String)) : Interpreter :=
  entries.foldl (fun i entry => (i.run entry.1 entry.2).2) i

/-- Runs of texts are a session, and its programs were read from the texts. -/
theorem exists_session (config : Config) (scriptName : String) (sink : Sink)
    (entries : List (Nat × String)) :
    ∃ runs, Session config runs ((new config scriptName sink).after entries) ∧
      Read (entries.map Prod.snd) runs := by
  induction entries using List.reverseRecOn with
  | nil => exact ⟨[], .new scriptName sink, List.forall_mem_nil _⟩
  | append_singleton entries entry ih =>
    obtain ⟨runs, session, read⟩ := ih
    have hafter : (new config scriptName sink).after (entries ++ [entry]) =
        (((new config scriptName sink).after entries).run entry.1 entry.2).2 := by
      rw [after, List.foldl_append]
      rfl
    have read' : Read ((entries ++ [entry]).map Prod.snd) runs := by
      intro r hr
      obtain ⟨text, htext, parsed⟩ := read r hr
      rw [List.map_append]
      exact ⟨text, List.mem_append_left _ htext, parsed⟩
    rw [hafter]
    cases parsed : Program.parse? entry.2 with
    | error ds => exact ⟨runs, session.reject entry.1 parsed, read'⟩
    | ok ss =>
      refine ⟨_, session.run entry.1 parsed, List.forall_mem_append.2 ⟨read', ?_⟩⟩
      rw [List.forall_mem_singleton]
      exact ⟨entry.2, by simp, parsed⟩

/-- A fault points into the text that is run or into one that was run before. With that text it is
told with the line in which the token stands; with the text that is run it is told in the same way
exactly if both have the same to quote under the number of that line. -/
theorem after_fault_quoted (config : Config) (standard : config.host = .standard)
    (scriptName : String) (sink : Sink) (entries : List (Nat × String)) (fuel : Nat)
    (source : String) {d : Diagnostic}
    (hrun : (((new config scriptName sink).after entries).run fuel source).1 = .fault d) :
    ∃ text ∈ source :: entries.map Prod.snd, d.PointsInto text ∧
      ∃ number, d.line = some number ∧ d.Quotes text number ∧
        ∀ name, d.render source name = d.render text name ↔
          Diagnostic.excerpt source number = Diagnostic.excerpt text number := by
  obtain ⟨runs, session, read⟩ := exists_session config scriptName sink entries
  obtain ⟨text, htext, hpoints⟩ := session.fault_pointsInto standard read hrun
  obtain ⟨number, hline, hquotes⟩ := hpoints.quotes
  refine ⟨text, htext, hpoints, number, hline, hquotes, fun name => ?_⟩
  rw [Diagnostic.render_eq hline, Diagnostic.render_eq hline]
  constructor
  · intro h
    exact (String.append_right_inj _).1 ((String.append_left_inj _).1 h)
  · exact fun h => by rw [h]

/-- A fault of a function that was defined by an earlier text. -/
theorem after_fault_quoted_earlier :
    let earlier := "fn f() \x7b return 1 - null; \x7d"
    let source := "f();"
    let i := (new {} "<repl>" {}).after [(30, earlier)]
    let d : Diagnostic :=
      { cause := .runtime .operandsNotNumbers, span := some ⟨18, 19⟩, line := some 1
        location := some (.lexeme "-") }
    (i.run 30 source).1 = .fault d ∧ d.PointsInto earlier ∧ d.Quotes earlier 1 ∧
      d.render source "<repl>" ≠ d.render earlier "<repl>" := by
  intro earlier source i d
  have hrun : (i.run 30 source).1 = .fault d := by decide +kernel
  obtain ⟨text, htext, hpoints, number, hline, hquotes, hrender⟩ :=
    after_fault_quoted {} rfl "<repl>" {} [(30, earlier)] 30 source hrun
  obtain rfl : 1 = number := Option.some.inj hline
  have hother : Diagnostic.excerpt source 1 ≠ Diagnostic.excerpt earlier 1 := by decide +kernel
  -- the span is longer than the text that is run
  rcases List.mem_cons.1 htext with rfl | htext
  · exact absurd (hpoints.stop_le rfl).2 (by decide +kernel)
  · obtain rfl : text = earlier := List.mem_singleton.1 htext
    exact ⟨hrun, hpoints, hquotes, fun h => hother ((hrender "<repl>").1 h)⟩

end Scripting.Interpreter

namespace Scripting.CommandLine.Session

/-- Lines that are entered one after the other. A fault at an operator of the first one is told with
the second one, in which there is no such operator. -/
theorem fault_misquoted :
    let settings : Settings := { time := "", fuel := 30, clock := fun _ => 0 }
    let lines := ["fn f() \x7b return 1 - null; \x7d", "f();"]
    let d : Diagnostic :=
      { cause := .runtime .operandsNotNumbers, span := some ⟨18, 19⟩, line := some 1
        location := some (.lexeme "-") }
    ((start settings).run (lines.map String.toUTF8)).1.err = d.render "f();" "<repl>" ∧
      ¬d.Quotes "f();" 1 := by
  refine ⟨by decide +kernel, fun hquotes => ?_⟩
  obtain ⟨line, hisLine, hinfix⟩ := hquotes.shown "-" rfl (by decide)
  have hline : Source.line? "f();".toList 1 = some ['f', '(', ')', ';'] := by decide
  obtain rfl : line = ['f', '(', ')', ';'] :=
    Option.some.inj (((Source.line?_eq_some_iff le_rfl).2 hisLine).symm.trans hline)
  exact absurd hinfix (by decide)

end Scripting.CommandLine.Session
