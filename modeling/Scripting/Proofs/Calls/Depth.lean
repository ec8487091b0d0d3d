import Scripting.Proofs.Machine.Likeness
import Scripting.Proofs.Points.Trails

/-!
# Calls in progress

* `callsOn T` : how many calls are being executed at the end of a trail;
* `Starts.callDepth` : a part is evaluated in as many calls as the whole, or in one more if it is
  what is called (`Starts.callDepth_le`);
* `Passes.callDepth` : however an evaluation ends, as many calls are in progress as when it began;
* `Trail.callDepth`, `Trail.callDepth_le` : so the machine counts the calls that are being executed,
  and there are never more than the limit.
-/

namespace Scripting

set_option autoImplicit false

open Eval

/-- The task is to execute what is called. -/
def Task.isCall : Task → Bool
  | call _ _ => true
  | _ => false

/-- How many calls are being executed at the end of a trail. -/
def callsOn (T : List Point) : Nat := T.countP (·.task.isCall)

theorem callsOn_cons (p : Point) (T : List Point) :
    callsOn (p :: T) = callsOn T + if p.task.isCall then 1 else 0 :=
  List.countP_cons

variable {config : Config} {p q start : Point} {vs : List Value} {around : List Point} {limit : Nat}

/-! ## Parts -/

/-- A call that is checked leaves the machine as it is, and is allowed. -/
theorem checkCall_eq_ok {paren : Token} {f : Value} {c : Callable} {m m' : Machine}
    (h : checkCall config paren f vs m = .ok c m') :
    config.allowsCall m.callDepth = true ∧ m' = m := by
  rcases checkCall_spec config paren f vs m with ⟨c', hcallable, harity⟩ | ⟨cause, -, heq⟩
  · rw [checkCall_of_accepts config paren hcallable harity] at h
    cases hroom : config.allowsCall m.callDepth with
    | true =>
      rw [hroom] at h
      cases h
      exact ⟨rfl, rfl⟩
    | false =>
      rw [hroom] at h
      cases h
  · rw [h] at heq
    cases heq

/-- A part is evaluated in as many calls as the whole. If it is what is called, it is in one more,
which was allowed. -/
theorem Starts.callDepth (standard : config.host = .standard) (starts : Starts config p vs q) :
    q.machine.callDepth = p.machine.callDepth + (if q.task.isCall then 1 else 0) ∧
      (q.task.isCall = true → config.allowsCall p.machine.callDepth = true) := by
  cases starts
  case call hcallee harguments hcheck =>
    obtain ⟨hroom, rfl⟩ := checkCall_eq_ok hcheck
    rw [callDepth_of_mapM harguments, callDepth_of_evaluate hcallee] at hroom ⊢
    exact ⟨rfl, fun _ => hroom⟩
  case hostCall f vs _ _ _ _ haction =>
    rw [standard] at haction
    rcases Host.standard_eq f vs with heq | ⟨text, heq⟩ | heq <;> rw [heq] at haction <;>
      cases haction
  case block hscope =>
    cases hscope
    exact ⟨rfl, nofun⟩
  case script f vs _ m _ _ hscope =>
    obtain ⟨log, hok⟩ := enterCall_eq config f vs m
    rw [hok] at hscope
    cases hscope
    exact ⟨rfl, nofun⟩
  case right h | second h _ | arguments h | othersOf h | whenTrue h _ | whenFalse h _
      | turnBody h _ =>
    exact ⟨callDepth_of_evaluate h, nofun⟩
  case othersIn h | othersRun h => exact ⟨callDepth_of_execute h, nofun⟩
  case nextTurn htest _ hbody _ =>
    exact ⟨(callDepth_of_execute hbody).trans (callDepth_of_evaluate htest), nofun⟩
  all_goals exact ⟨rfl, nofun⟩

theorem Starts.callDepth_le (standard : config.host = .standard)
    (limited : config.callLimit = some limit) (starts : Starts config p vs q)
    (h : p.machine.callDepth ≤ limit) : q.machine.callDepth ≤ limit := by
  obtain ⟨hdepth, hroom⟩ := starts.callDepth standard
  rw [hdepth]
  cases hcall : q.task.isCall with
  | false => exact h
  | true =>
    have := hroom hcall
    rw [Config.allowsCall, limited] at this
    exact Nat.succ_le_of_lt (of_decide_eq_true this)

/-- However the evaluation of a point ends, as many calls are in progress as when it began. -/
theorem Passes.callDepth {m' : Machine} (h : Passes config p vs m') :
    m'.callDepth = p.machine.callDepth := by
  have hadvancing := advancing config p.fuel
  have hclosed := closed_advances config
  obtain ⟨task, n, m⟩ := p
  cases h with
  | start => rfl
  | ends ends =>
    cases task with
    | expr e =>
      obtain ⟨v, hok, -⟩ := ends
      exact callDepth_of_evaluate hok
    | exprs es => exact callDepth_of_mapM ends
    | stmt s =>
      obtain ⟨flow, hok, -⟩ := ends
      exact callDepth_of_execute hok
    | stmts ss =>
      obtain ⟨flow, hok, -⟩ := ends
      exact ((hclosed.runAll hadvancing.execute ss).of_ok hok).callDepth
    | turns count condition body =>
      obtain ⟨flow, hok, -⟩ := ends
      exact ((hclosed.repeatWhile (hadvancing.evaluate condition) (hadvancing.execute body)
        count).of_ok hok).callDepth
    | call c arguments =>
      obtain ⟨v, hok, -⟩ := ends
      exact ((hadvancing.invoke c arguments).of_ok hok).callDepth
    | program ss => exact ((runProgram_advances config n ss).of_ok ends.1).callDepth
  | halts halts =>
    cases task with
    | expr e => exact ((hadvancing.evaluate e).of_error halts).callDepth
    | exprs es => exact ((hclosed.mapM hadvancing.evaluate es).of_error halts).callDepth
    | stmt s => exact ((hadvancing.execute s).of_error halts).callDepth
    | stmts ss => exact ((hclosed.runAll hadvancing.execute ss).of_error halts).callDepth
    | turns count condition body =>
      exact ((hclosed.repeatWhile (hadvancing.evaluate condition) (hadvancing.execute body)
        count).of_error halts).callDepth
    | call c arguments => exact ((hadvancing.invoke c arguments).of_error halts).callDepth
    | program ss => exact ((runProgram_advances config n ss).of_error halts).callDepth

/-! ## Trails -/

/-- In a run that begins outside all calls, the machine counts the calls that are being executed. -/
theorem Trail.callDepth (standard : config.host = .standard) (hstart : start.task.isCall = false)
    (idle : start.machine.callDepth = 0) (trail : Trail config start (p :: around)) :
    p.machine.callDepth = callsOn (p :: around) := by
  induction around generalizing p with
  | nil =>
    cases trail
    rw [idle, callsOn_cons, hstart]
    rfl
  | cons q around ih =>
    obtain _ | ⟨trail, starts⟩ := trail
    rw [(starts.callDepth standard).1, ih trail, callsOn_cons p]

/-- There are never more calls than the limit. -/
theorem Trail.callDepth_le (standard : config.host = .standard)
    (limited : config.callLimit = some limit) (idle : start.machine.callDepth = 0)
    (trail : Trail config start (p :: around)) : p.machine.callDepth ≤ limit := by
  induction around generalizing p with
  | nil =>
    cases trail
    exact idle ▸ Nat.zero_le limit
  | cons q around ih =>
    obtain _ | ⟨trail, starts⟩ := trail
    exact starts.callDepth_le standard limited (ih trail)

end Scripting
