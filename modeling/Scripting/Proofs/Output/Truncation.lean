import Scripting.Proofs.Machine.Later
import Scripting.Proofs.Output.Sinks

/-!
# Output that is cut off

* `Machine.capped total m` : the machine `m`, with room for output up to a total number of bytes;
* `Machine.Outputs m m'` : the sink of `m'` is that of `m`, with more bytes in it;
* `Eval.Truncates total act` : on a machine with room up to a total, a computation does what it does
  with all the room there is, or the total is reached and it halts with the refusal of the sink;
* `closed_truncates` : so it is with every evaluation.

The first of two computations may go beyond the total. Then it has halted on the machine with less
room, and what the second one writes comes behind the total.
-/

namespace Scripting

set_option autoImplicit false

open Eval

/-! ## Machines -/

namespace Machine

/-- The machine with room for output up to a total number of bytes. -/
def capped (total : Nat) (m : Machine) : Machine :=
  { m with sink := { m.sink with room := some (total - m.sink.written.size) } }

/-- The sink of the second machine is that of the first one, with more bytes in it. -/
def Outputs (m m' : Machine) : Prop :=
  ∃ bytes, m'.sink = { m.sink with written := m.sink.written ++ bytes }

namespace Outputs

variable {m m' m'' : Machine}

theorem of_eq (h : m'.sink = m.sink) : m.Outputs m' :=
  ⟨.empty, by rw [h, ByteArray.append_empty]⟩

theorem trans (h : m.Outputs m') (h' : m'.Outputs m'') : m.Outputs m'' := by
  obtain ⟨bytes, h⟩ := h
  obtain ⟨bytes', h'⟩ := h'
  exact ⟨bytes ++ bytes', by rw [h', h, ByteArray.append_assoc]⟩

theorem room (h : m.Outputs m') (hfree : m.sink.room = none) : m'.sink.room = none := by
  obtain ⟨bytes, h⟩ := h
  rw [h]
  exact hfree

theorem refusal (h : m.Outputs m') : m'.sink.refusal = m.sink.refusal := by
  obtain ⟨bytes, h⟩ := h
  rw [h]

theorem size_le (h : m.Outputs m') : m.sink.written.size ≤ m'.sink.written.size := by
  obtain ⟨bytes, h⟩ := h
  rw [h, ByteArray.size_append]
  exact Nat.le_add_right ..

/-- The first bytes stay the same. -/
theorem extract (h : m.Outputs m') {total : Nat} (hle : total ≤ m.sink.written.size) :
    m'.sink.written.extract 0 total = m.sink.written.extract 0 total := by
  obtain ⟨bytes, h⟩ := h
  rw [h, ByteArray.extract_append, Nat.sub_eq_zero_of_le hle, Nat.zero_sub, ByteArray.extract_same,
    ByteArray.append_empty]

end Outputs

end Machine

/-! ## Computations -/

namespace Eval

variable {α β : Type} {total : Nat}

/-- The result of a computation, with room up to a total in the machine. -/
def capped (total : Nat) : EStateM.Result Halt Machine α → EStateM.Result Halt Machine α
  | .ok a m => .ok a (m.capped total)
  | .error h m => .error h (m.capped total)

/-- On a machine with room up to a total, the computation does what it does with all the room there
is; or the total is reached, and it halts with the refusal of the sink. -/
structure Truncates (total : Nat) (act : Eval α) : Prop where
  outputs : ∀ m : Machine, m.sink.room = none → m.Outputs (act.final m)
  fits : ∀ m : Machine, m.sink.room = none → (act.final m).sink.written.size ≤ total →
    act (m.capped total) = capped total (act m)
  cut : ∀ m : Machine, m.sink.room = none → m.sink.written.size ≤ total →
    total < (act.final m).sink.written.size → ∃ m',
      act (m.capped total) = .error (.io m.sink.refusal) m' ∧
      m'.sink.written = (act.final m).sink.written.extract 0 total

theorem Truncates.bind {act : Eval α} {next : α → Eval β} (h : Truncates total act)
    (hnext : ∀ a, Truncates total (next a)) : Truncates total (act >>= next) := by
  refine ⟨fun m hfree => ?_, fun m hfree hfits => ?_, fun m hfree hle hcut => ?_⟩
  · have hout := h.outputs m hfree
    cases hact : act m with
    | error halt m' => rwa [final_bind_of_error hact, ← final_of_error hact]
    | ok a m' =>
      rw [final_of_ok hact] at hout
      rw [final_bind_of_ok hact]
      exact hout.trans ((hnext a).outputs m' (hout.room hfree))
  · have hout := h.outputs m hfree
    have hcapped := h.fits m hfree
    cases hact : act m with
    | error halt m' =>
      rw [final_bind_of_error hact] at hfits
      rw [hact, final_of_error hact] at hcapped
      rw [bind_of_error hact]
      exact bind_of_error (hcapped hfits)
    | ok a m' =>
      rw [final_of_ok hact] at hout
      rw [final_bind_of_ok hact] at hfits
      rw [hact, final_of_ok hact] at hcapped
      have hsize := ((hnext a).outputs m' (hout.room hfree)).size_le
      rw [bind_of_ok hact, bind_of_ok (hcapped (Nat.le_trans hsize hfits))]
      exact (hnext a).fits m' (hout.room hfree) hfits
  · have hout := h.outputs m hfree
    have hcapped := h.fits m hfree
    have hcut₁ := h.cut m hfree hle
    cases hact : act m with
    | error halt m' =>
      rw [final_bind_of_error hact] at hcut ⊢
      rw [final_of_error hact] at hcut₁
      obtain ⟨m₁, hm₁, hwritten⟩ := hcut₁ hcut
      exact ⟨m₁, bind_of_error hm₁, hwritten⟩
    | ok a m' =>
      rw [final_of_ok hact] at hout hcut₁
      rw [final_bind_of_ok hact] at hcut ⊢
      rw [hact, final_of_ok hact] at hcapped
      have hfree' := hout.room hfree
      rcases Nat.lt_or_ge total m'.sink.written.size with hlt | hge
      · -- The first computation is cut off already.
        obtain ⟨m₁, hm₁, hwritten⟩ := hcut₁ hlt
        refine ⟨m₁, bind_of_error hm₁, hwritten.trans ?_⟩
        exact (((hnext a).outputs m' hfree').extract (Nat.le_of_lt hlt)).symm
      · rw [bind_of_ok (hcapped hge), ← hout.refusal]
        exact (hnext a).cut m' hfree' hge hcut

/-! ## Operations -/

/-- The result of a computation, with another sink in the machine. -/
def withSink (sink : Sink) : EStateM.Result Halt Machine α → EStateM.Result Halt Machine α
  | .ok a m => .ok a { m with sink }
  | .error h m => .error h { m with sink }

/-- A computation that neither reads nor changes the sink. -/
theorem Truncates.of_withSink {act : Eval α}
    (h : ∀ (m : Machine) (sink : Sink), act { m with sink } = withSink sink (act m)) :
    Truncates total act := by
  have hsink (m : Machine) : (act.final m).sink = m.sink := by
    have hm := h m m.sink
    unfold final
    cases hact : act m with
    | ok a m' =>
      rw [hact] at hm
      have hsink := congrArg Machine.sink (EStateM.Result.ok.inj hm).2
      exact hsink
    | error halt m' =>
      rw [hact] at hm
      have hsink := congrArg Machine.sink (EStateM.Result.error.inj hm).2
      exact hsink
  refine ⟨fun m _ => .of_eq (hsink m), fun m _ _ => ?_, fun m _ hle hcut => ?_⟩
  · have hm := hsink m
    refine (h m _).trans ?_
    cases hact : act m with
    | ok a m' =>
      rw [final_of_ok hact] at hm
      simp only [withSink, capped, Machine.capped, hm]
    | error halt m' =>
      rw [final_of_error hact] at hm
      simp only [withSink, capped, Machine.capped, hm]
  · rw [hsink] at hcut
    exact absurd hcut (Nat.not_lt.2 hle)

theorem write_of_taken {m : Machine} {text : String}
    (h : m.sink.refusal? text.toUTF8 = none) :
    write text m = .ok () { m with sink := m.sink.write text.toUTF8 } := by
  simp only [write, h]

theorem write_of_refused {m : Machine} {text : String} {fault : IoFault}
    (h : m.sink.refusal? text.toUTF8 = some fault) :
    write text m = .error (.io fault) { m with sink := m.sink.write text.toUTF8 } := by
  simp only [write, h]

theorem truncates_write (text : String) : Truncates total (write text) := by
  have hwrite (m : Machine) (hfree : m.sink.room = none) : write text m =
      .ok () { m with sink := { m.sink with written := m.sink.written ++ text.toUTF8 } } := by
    rw [write_of_taken (Sink.refusal?_of_room_eq_none hfree _), Sink.write_of_room_eq_none hfree]
  refine ⟨fun m hfree => ?_, fun m hfree hfits => ?_, fun m hfree hle hcut => ?_⟩
  · rw [final_of_ok (hwrite m hfree)]
    exact ⟨text.toUTF8, rfl⟩
  · rw [final_of_ok (hwrite m hfree), ByteArray.size_append] at hfits
    have hroom : ∀ room ∈ (m.capped total).sink.room, text.toUTF8.size ≤ room := by
      rintro room ⟨⟩
      exact Nat.le_sub_of_add_le' hfits
    rw [hwrite m hfree, write_of_taken (Sink.refusal?_eq_none_iff.2 hroom),
      Sink.write_of_fits hroom]
    simp only [capped, Machine.capped, Sink.take, Option.map_some, ByteArray.size_append,
      Nat.sub_sub]
  · rw [final_of_ok (hwrite m hfree)] at hcut ⊢
    have hlt : total - m.sink.written.size < text.toUTF8.size := by
      rw [ByteArray.size_append] at hcut
      omega
    obtain ⟨hrefusal, hsink⟩ := (m.capped total).sink.write_of_lt rfl hlt
    have hwritten := Sink.extract_of_size_le hle
    refine ⟨_, write_of_refused hrefusal, ?_⟩
    rw [hsink, ByteArray.extract_append, hwritten, Nat.zero_sub]
    rfl

theorem truncates_flush : Truncates total flush := by
  have hfinal (m : Machine) : flush.final m = m := by
    unfold final flush
    cases m.sink.flush <;> rfl
  refine ⟨fun m _ => .of_eq (by rw [hfinal]), fun m _ _ => ?_, fun m _ hle hcut => ?_⟩
  · unfold flush
    rw [show (m.capped total).sink.flush = m.sink.flush from rfl]
    cases m.sink.flush <;> rfl
  · rw [hfinal] at hcut
    exact absurd hcut (Nat.not_lt.2 hle)

/-- A computation inside another one, which changes the machine before and behind it, but neither
reads nor changes the sink. -/
theorem Truncates.inside {act act' : Eval α} (h : Truncates total act) (enter : Machine → Machine)
    (leave : Machine → Machine → Machine)
    (hact : ∀ m, act' m = match act (enter m) with
      | .ok a m' => .ok a (leave m m')
      | .error halt m' => .error halt (leave m m'))
    (henter : ∀ (m : Machine) (sink : Sink), enter { m with sink } = { enter m with sink })
    (hleave : ∀ (m m' : Machine) (sink sink' : Sink),
      leave { m with sink } { m' with sink := sink' } = { leave m m' with sink := sink' }) :
    Truncates total act' := by
  have hsink (m : Machine) : (enter m).sink = m.sink := by
    have h := congrArg Machine.sink (henter m m.sink)
    exact h
  have hsink' (m m' : Machine) : (leave m m').sink = m'.sink := by
    have h := congrArg Machine.sink (hleave m m' m.sink m'.sink)
    exact h
  have hfinal (m : Machine) : (act'.final m).sink = (act.final (enter m)).sink := by
    unfold final
    rw [hact]
    cases act (enter m) <;> exact hsink' ..
  have hcapped (m : Machine) : enter (m.capped total) = (enter m).capped total := by
    rw [Machine.capped, henter, Machine.capped, hsink]
  refine ⟨fun m hfree => ?_, fun m hfree hfits => ?_, fun m hfree hle hcut => ?_⟩
  · obtain ⟨bytes, hbytes⟩ := h.outputs (enter m) (by rwa [hsink])
    exact ⟨bytes, by rw [hfinal, hbytes, hsink]⟩
  · rw [hfinal] at hfits
    rw [hact, hact, hcapped, h.fits (enter m) (by rwa [hsink]) hfits]
    cases act (enter m) with
    | ok a m' =>
      simp only [capped, Machine.capped, hsink']
      exact congrArg _ (hleave ..)
    | error halt m' =>
      simp only [capped, Machine.capped, hsink']
      exact congrArg _ (hleave ..)
  · rw [hfinal] at hcut ⊢
    obtain ⟨m', hm', hwritten⟩ := h.cut (enter m) (by rwa [hsink]) (by rwa [hsink]) hcut
    refine ⟨leave (m.capped total) m', ?_, by rw [hsink', hwritten]⟩
    rw [hact, hcapped, hm', hsink]

theorem Truncates.within {act : Eval α} (h : Truncates total act) (scope : Scope) :
    Truncates total (within scope act) :=
  h.inside (fun m => { m with scope }) (fun m m' => { m' with scope := m.scope }) (fun _ => rfl)
    (fun _ _ => rfl) fun _ _ _ _ => rfl

theorem Truncates.counted {act : Eval α} (h : Truncates total act) :
    Truncates total (counted act) :=
  h.inside (fun m => { m with callDepth := m.callDepth + 1 })
    (fun _ m' => { m' with callDepth := m'.callDepth - 1 }) (fun _ => rfl) (fun _ _ => rfl)
    fun _ _ _ _ => rfl

theorem truncates_checkCall (config : Config) (paren : Token) (f : Value) (vs : List Value) :
    Truncates total (checkCall config paren f vs) := by
  refine .of_withSink fun m sink => ?_
  unfold checkCall
  cases f.callable? with
  | none => rfl
  | some callee =>
    dsimp only
    split
    · have hget (m : Machine) {next : Machine → Eval Callable} : (get >>= next) m = next m m := rfl
      rw [hget, hget]
      dsimp only
      cases config.allowsCall m.callDepth <;> rfl
    · rfl

theorem closed_truncates (config : Config) (total : Nat) :
    Closed config fun _ act => Truncates total act where
  pure a := .of_withSink fun _ _ => rfl
  throw halt := .of_withSink fun _ _ => rfl
  bind := Truncates.bind
  within scope h := h.within scope
  counted := Truncates.counted
  readName t := .of_withSink fun m sink => by
    unfold readName
    dsimp only
    cases m.store.read m.scope t <;> rfl
  writeName t v := .of_withSink fun m sink => by
    unfold writeName
    dsimp only
    cases m.store.locate m.scope t <;> rfl
  defineName name v := .of_withSink fun _ _ => rfl
  makeFunction name parameters body := .of_withSink fun _ _ => rfl
  newScope outer frame := .of_withSink fun _ _ => rfl
  enterBlock := .of_withSink fun _ _ => rfl
  checkCall := truncates_checkCall config
  write := truncates_write
  flush := truncates_flush
  tell e := .of_withSink fun _ _ => rfl
  newReading := .of_withSink fun _ _ => rfl

end Eval

end Scripting
