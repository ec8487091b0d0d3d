import Scripting.Proofs.Control.Faults
import Scripting.Proofs.Machine.Likeness
import Scripting.Proofs.Output.Truncation

/-!
# Runs with a sink that refuses

* `Interpreter.withRoom` : the interpreter whose sink takes a number of bytes more, or any number;
* `Point.IsRefused` : the points at which a native function writes what the sink does not take;
* `Trail.refused` : where a run halts with a fault of its output, and flushing does not fail, it is
  such a point that it halts at, and nothing of the run follows;
* `Interpreter.run_truncated` : a sink that refuses only cuts off the output of a run.
-/

namespace Scripting

set_option autoImplicit false

open Eval

/-! ## Where output is refused -/

/-- A native function writes a text, and there is no room for it. -/
inductive Point.IsRefused (config : Config) : Point → Prop
  | mk {identity n : Nat} {f : Native} {vs : List Value} {m : Machine} {text : String} {v : Value}
      {fault : IoFault} (writes : config.host f vs = .write text v)
      (refused : m.sink.refusal? text.toUTF8 = some fault) :
      IsRefused config ⟨.call (.native identity f) vs, n + 1, m⟩

/-- Writing starts no part. -/
theorem Point.IsRefused.not_starts {config : Config} {p q : Point} {vs : List Value}
    (h : p.IsRefused config) : ¬Starts config p vs q := by
  intro starts
  obtain ⟨writes, -⟩ := h
  cases starts with
  | hostCall haction => exact absurd (writes.symm.trans haction) nofun

theorem Point.IsRefused.halts {config : Config} {p : Point} (h : p.IsRefused config) :
    ∃ fault m', HaltsIn config p (.io fault) m' := by
  obtain @⟨identity, n, f, vs, m, text, v, fault, writes, refused⟩ := h
  refine ⟨fault, { m with sink := m.sink.write text.toUTF8 }, ?_⟩
  show invoke config (n + 1) _ _ _ = _
  rw [invoke, paced_eq, writes]
  exact bind_of_error (write_of_refused refused)

namespace Trail

variable {config : Config} {start : Point}

/-- Whether flushing fails does not change among the statements of a program. -/
theorem flushFails {T : List Point} {ss : List Stmt} {n : Nat} {m : Machine}
    (trail : Trail config start (⟨.program ss, n, m⟩ :: T)) :
    m.sink.flushFails = start.machine.sink.flushFails := by
  induction T generalizing ss n m with
  | nil =>
    cases trail
    rfl
  | cons q T ih =>
    obtain _ | ⟨trail, starts⟩ := trail
    cases starts with
    | othersRun hfirst =>
      exact (((advancing config _).execute _).of_ok hfirst).flushFails.trans (ih trail)

/-- A run that halts with a fault of its output halts at a point where output is refused. Whatever
else is evaluated in the run is evaluated around that point, or before it. -/
theorem refused (standard : config.host = .standard)
    (flushes : start.machine.sink.flushFails = false) {fault : IoFault}
    (halts : Halts config start (.io fault)) :
    ∃ p around, Trail config start (p :: around) ∧ p.IsRefused config ∧
      ∀ T', Trail config start T' → T' <:+ p :: around ∨ Before config T' (p :: around) := by
  obtain ⟨kept, p, reaches, raises⟩ := halts.origin
  obtain ⟨around, trail⟩ := reaches.trail
  have hrefused : p.IsRefused config := by
    cases raises with
    | refused writes hrefusal => exact ⟨writes, hrefusal⟩
    | check _ _ hcheck =>
      obtain ⟨cause, hcause, -⟩ := checkCall_fault hcheck
      cases hcause
    | @result _ _ _ _ _ _ _ _ _ flow _ _ _ hresult => cases flow <;> cases hresult
    | @hostIo _ f vs _ _ _ haction =>
      rw [standard] at haction
      rcases Host.standard_eq f vs with heq | ⟨text, heq⟩ | heq <;> rw [heq] at haction <;>
        cases haction
    | unflushed hflush =>
      rw [Sink.flush, trail.flushFails, flushes] at hflush
      cases hflush
  obtain ⟨_, _, hhalts⟩ := hrefused.halts
  refine ⟨p, around, trail, hrefused, fun T' trail' => ?_⟩
  rcases trail.last (trail.halts hhalts).2 trail' with hsuffix | hsuffix | hbefore
  · exact .inl hsuffix
  · have hT' := trail'.eq_of_suffix (fun _ _ => hrefused.not_starts) hsuffix
    exact .inl (hT' ▸ List.suffix_refl _)
  · exact .inr hbefore

end Trail

/-! ## Runs -/

namespace Interpreter

/-- The interpreter whose sink takes `room` bytes more, or any number. -/
def withRoom (i : Interpreter) (room : Option Nat) : Interpreter :=
  { i with machine := { i.machine with sink := { i.machine.sink with room } } }

variable {i : Interpreter} {fuel : Nat} {source : String} {ss : List Stmt}

/-- Where a text has faults, the room for output is of no matter. -/
theorem run_withRoom_of_rejected {ds : List Diagnostic} (h : Program.parse? source = .error ds)
    (room : Option Nat) : (i.withRoom room).run fuel source =
      ((i.run fuel source).1, (i.run fuel source).2.withRoom room) := by
  rw [Program.parse?_eq] at h
  unfold run
  split at h
  · rename_i hscan
    unfold Program.result at h
    split at h
    · cases h
    · rename_i hread
      simp only [hscan, hread, Bool.not_true, Bool.not_false, Bool.false_eq_true, if_false, if_true]
      rfl
  · rename_i hscan
    simp only [hscan, Bool.not_false, if_true]
    rfl

/-- The sink behind a run is the one behind its program. -/
theorem sink_ending (i : Interpreter) (act : Eval Unit) (m : Machine) :
    (i.ending (act m)).2.machine.sink = (act.final m).sink := by
  unfold final
  cases act m <;> rfl

/-- What comes of a run with room up to a total that was not reached. -/
theorem ending_capped (i : Interpreter) (total : Nat) (room room' : Option Nat) (act : Eval Unit)
    (m : Machine) : (i.withRoom room).ending (Eval.capped total (act m)) =
      (((i.withRoom room').ending (act m)).1, ((i.withRoom room').ending (act m)).2.withRoom
        (some (total - (act.final m).sink.written.size))) := by
  unfold final
  cases act m <;> rfl

/-- The machine at the beginning of a run with less room. -/
theorem capped_opening (i : Interpreter) (fuel : Nat) (source : String) (ss : List Stmt) (n : Nat) :
    ((i.withRoom none).opening fuel source ss).machine.capped (i.machine.sink.written.size + n) =
      ((i.withRoom (some n)).opening fuel source ss).machine := by
  unfold Machine.capped
  rw [show ((i.withRoom none).opening fuel source ss).machine.sink.written =
    i.machine.sink.written from rfl, Nat.add_sub_cancel_left]
  rfl

/-- A run of a program with a sink that takes any number of bytes, and one with less room: what the
second one writes, and what comes of it. -/
theorem run_withRoom (fuel : Nat) (parsed : Program.parse? source = .ok ss) (n : Nat) :
    ∃ output, ((i.withRoom none).run fuel source).2.machine.sink.written =
        i.machine.sink.written ++ output ∧
      ((i.withRoom (some n)).run fuel source).2.machine.sink.written =
        i.machine.sink.written ++ output.extract 0 n ∧
      (output.size ≤ n → (i.withRoom (some n)).run fuel source =
        (((i.withRoom none).run fuel source).1,
          ((i.withRoom none).run fuel source).2.withRoom (some (n - output.size)))) ∧
      (n < output.size →
        ((i.withRoom (some n)).run fuel source).1 = .ioFault i.machine.sink.refusal) := by
  let total := i.machine.sink.written.size + n
  let program := runProgram i.config fuel ss
  let m := ((i.withRoom none).opening fuel source ss).machine
  have truncates : Truncates total program := (closed_truncates i.config total).runProgram fuel ss
  have hfree : (i.withRoom none).run fuel source = (i.withRoom none).ending (program m) :=
    run_eq_ending parsed
  have hlimited : (i.withRoom (some n)).run fuel source =
      (i.withRoom (some n)).ending (program (m.capped total)) := by
    rw [capped_opening]
    exact run_eq_ending parsed
  obtain ⟨output, houtput⟩ := truncates.outputs m rfl
  have hwritten : (program.final m).sink.written = i.machine.sink.written ++ output :=
    congrArg Sink.written houtput
  have hsize : (program.final m).sink.written.size = i.machine.sink.written.size + output.size := by
    rw [hwritten, ByteArray.size_append]
  have hwritten' : ((i.withRoom none).run fuel source).2.machine.sink.written =
      i.machine.sink.written ++ output := by
    rw [hfree, sink_ending, hwritten]
  refine ⟨output, hwritten', ?_⟩
  rcases Nat.lt_or_ge n output.size with hlt | hle
  · obtain ⟨m', hcut, hwritten''⟩ := truncates.cut m rfl (Nat.le_add_right ..) (by omega)
    rw [hlimited, hcut]
    refine ⟨?_, fun hle => absurd hlt (Nat.not_lt.2 hle), fun _ => rfl⟩
    refine hwritten''.trans ?_
    rw [hwritten, ByteArray.extract_append, Nat.zero_sub, Nat.add_sub_cancel_left,
      Sink.extract_of_size_le (Nat.le_add_right ..)]
  · have hrun : (i.withRoom (some n)).run fuel source =
        (((i.withRoom none).run fuel source).1,
          ((i.withRoom none).run fuel source).2.withRoom (some (n - output.size))) := by
      rw [hlimited, truncates.fits m rfl (by omega), ending_capped i total _ none, ← hfree, hsize,
        Nat.add_sub_add_left]
    refine ⟨?_, fun _ => hrun, fun hlt => absurd hlt (Nat.not_lt.2 hle)⟩
    rw [hrun, Sink.extract_of_size_le hle]
    exact hwritten'

/-- A sink that refuses at some time only cuts off the output. However a sink takes texts in parts,
it comes to the same. A run with a sink that takes `n` bytes in all writes the first `n` bytes of
what it writes to a sink that takes any number. If there are no more, nothing else is different. If
there are more, the run ends with the fault of the sink and no diagnostics; it ends at a write for
which there is no room, and everything else that is evaluated in the run is evaluated around that
write, or before it. -/
theorem run_truncated (i : Interpreter) (standard : i.config.host = .standard)
    (flushes : i.machine.sink.flushFails = false) (fuel : Nat) (source : String) (n : Nat) :
    (∀ s bytes fault s', Sink.Fills s bytes fault s' ↔
      fault = s.refusal? bytes ∧ s' = s.write bytes) ∧
    ∃ output, ((i.withRoom none).run fuel source).2.machine.sink.written =
        i.machine.sink.written ++ output ∧
      ((i.withRoom (some n)).run fuel source).2.machine.sink.written =
        i.machine.sink.written ++ output.extract 0 n ∧
      (output.size ≤ n → (i.withRoom (some n)).run fuel source =
        (((i.withRoom none).run fuel source).1,
          ((i.withRoom none).run fuel source).2.withRoom (some (n - output.size)))) ∧
      (n < output.size →
        ((i.withRoom (some n)).run fuel source).1 = .ioFault i.machine.sink.refusal ∧
        ((i.withRoom (some n)).run fuel source).1.diagnostics = [] ∧
        ∃ ss p around, Program.parse? source = .ok ss ∧
          Trail i.config ((i.withRoom (some n)).opening fuel source ss) (p :: around) ∧
          p.IsRefused i.config ∧
          ∀ T', Trail i.config ((i.withRoom (some n)).opening fuel source ss) T' →
            T' <:+ p :: around ∨ Before i.config T' (p :: around)) := by
  refine ⟨fun _ _ _ _ => Sink.fills_iff, ?_⟩
  cases parsed : Program.parse? source with
  | error ds =>
    obtain ⟨log, hrun⟩ := (i.run_of_rejected fuel parsed).1
    refine ⟨.empty, ?_⟩
    rw [run_withRoom_of_rejected parsed, run_withRoom_of_rejected parsed, hrun]
    simp [withRoom, Sink.extract_of_size_le]
  | ok ss =>
    obtain ⟨output, hfree, hlimited, hfits, hcut⟩ := run_withRoom fuel parsed n
    refine ⟨output, hfree, hlimited, hfits, fun hlt => ?_⟩
    have hrefused := hcut hlt
    refine ⟨hrefused, by rw [hrefused]; rfl, ?_⟩
    have halts := halts_of_run (h := .io i.machine.sink.refusal) parsed hrefused
    obtain ⟨p, around, trail, hp, hlast⟩ := Trail.refused standard flushes halts
    exact ⟨ss, p, around, rfl, trail, hp, hlast⟩

/-- A line of which the sink takes a part, in the argument of an argument of a call. -/
theorem run_truncated_in_argument :
    let source := "fn f(n) \x7b print(\"ab\", n); return n + 1; \x7d print(f(f(0)));"
    let i := (Interpreter.new {} "session" {}).withRoom (some 6)
    (i.run 30 source).2.machine.sink.written = "ab0\nab".toUTF8 ∧
      (i.run 30 source).1 = .ioFault .closed ∧ ∃ ss p around, Program.parse? source = .ok ss ∧
        Trail i.config (i.opening 30 source ss) (p :: around) ∧ p.IsRefused i.config := by
  intro source i
  obtain ⟨-, output, hfree, hlimited, -, hcut⟩ :=
    run_truncated (Interpreter.new {} "session" {}) rfl rfl 30 source 6
  have hwritten :
      (((Interpreter.new {} "session" {}).withRoom none).run 30 source).2.machine.sink.written =
        "ab0\nab1\n2\n".toUTF8 := by decide +kernel
  obtain rfl : output = "ab0\nab1\n2\n".toUTF8 := by
    rw [← hwritten, hfree]
    exact ByteArray.empty_append.symm
  obtain ⟨hfault, -, ss, p, around, parsed, trail, hp, -⟩ := hcut (by decide +kernel)
  refine ⟨hlimited.trans (by decide +kernel), hfault, ss, p, around, parsed, trail, hp⟩

end Interpreter

end Scripting
