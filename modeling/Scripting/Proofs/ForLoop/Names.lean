import Scripting.Proofs.Machine.Later
import Scripting.Proofs.Same.Trees

/-!
# Where names are declared

* `Eval.DeclaresIn inner` : no frame that there was binds another name behind the computation, but
  for the innermost one if `inner` is set (`DeclaresIn.bind` and the like);
* `Declaring`, `declaring` : expressions and calls declare no names in frames that there were, and a
  statement only in the innermost one, and none if it binds nothing.

A name that a block or a function declares is bound in a frame that was made for it.
-/

namespace Scripting

set_option autoImplicit false

namespace Eval

variable {α β : Type} {inner : Bool}

/-- However the computation ends, the frames that there were have the names that they had, but for
the innermost one, if the flag is set. -/
structure DeclaresIn (inner : Bool) (act : Eval α) : Prop where
  advances : act.Advances
  names : ∀ (m : Machine) (id : FrameId), id < m.store.size →
    (inner = true → id ≠ m.scope.inner) →
    ((act.final m).store.frame id).names = (m.store.frame id).names

/-- Where no names are declared, none are declared in other frames. -/
theorem DeclaresIn.mono {act : Eval α} (h : DeclaresIn false act) : DeclaresIn inner act where
  advances := h.advances
  names m id hid _ := h.names m id hid fun hinner => absurd hinner Bool.false_ne_true

theorem declaresIn_of_store {act : Eval α} (h : act.Advances)
    (hstore : ∀ m : Machine, (act.final m).store = m.store) : DeclaresIn inner act where
  advances := h
  names m id _ _ := by rw [hstore m]

theorem declaresIn_pure (a : α) : DeclaresIn inner (pure a) :=
  declaresIn_of_store (advances_pure a) fun _ => rfl

theorem declaresIn_throw (halt : Halt) : DeclaresIn inner (throw halt : Eval α) :=
  declaresIn_of_store (advances_throw halt) fun _ => rfl

theorem DeclaresIn.bind {act : Eval α} {next : α → Eval β} (h : DeclaresIn inner act)
    (hnext : ∀ a, DeclaresIn inner (next a)) : DeclaresIn inner (act >>= next) where
  advances := h.advances.bind fun a => (hnext a).advances
  names m id hid hinner := by
    have hfirst := h.names m id hid hinner
    cases hact : act m with
    | ok a m₁ =>
      have hlater := h.advances.of_ok hact
      rw [final_of_ok hact] at hfirst
      rw [final_bind_of_ok hact, ← hfirst]
      refine (hnext a).names m₁ id (Nat.lt_of_lt_of_le hid hlater.store.size) ?_
      rwa [hlater.scope]
    | error halt m₁ =>
      rw [final_of_error hact] at hfirst
      rwa [final_bind_of_error hact]

theorem declaresIn_liftAt (t : Token) (r : Except RuntimeFault α) :
    DeclaresIn inner (liftAt t r) := by
  cases r with
  | ok a => exact declaresIn_pure a
  | error cause => exact declaresIn_throw _

theorem DeclaresIn.mapM {f : α → Eval β} (h : ∀ a, DeclaresIn inner (f a)) (as : List α) :
    DeclaresIn inner (as.mapM f) := by
  induction as with
  | nil => exact declaresIn_pure []
  | cons a as ih =>
    rw [List.mapM_cons]
    exact (h a).bind fun b => ih.bind fun bs => declaresIn_pure (b :: bs)

theorem final_within (scope : Scope) (act : Eval α) (m : Machine) :
    (within scope act).final m = { act.final { m with scope } with scope := m.scope } := by
  unfold final Eval.within
  cases act { m with scope } <;> rfl

theorem final_counted (act : Eval α) (m : Machine) : (counted act).final m =
    let m' := act.final { m with callDepth := m.callDepth + 1 }
    { m' with callDepth := m'.callDepth - 1 } := by
  unfold final Eval.counted
  cases act { m with callDepth := m.callDepth + 1 } <;> rfl

theorem DeclaresIn.counted {act : Eval α} (h : DeclaresIn inner act) :
    DeclaresIn inner (counted act) where
  advances := h.advances.counted
  names m id hid hinner := by
    rw [final_counted]
    exact h.names { m with callDepth := m.callDepth + 1 } id hid hinner

/-! ### Names and frames -/

theorem declaresIn_readName (t : Token) : DeclaresIn inner (readName t) := by
  refine declaresIn_of_store (advances_readName t) fun m => ?_
  unfold final readName
  cases m.store.read m.scope t <;> rfl

/-- A name that is assigned is bound before. -/
theorem declaresIn_writeName (t : Token) (v : Value) : DeclaresIn inner (writeName t v) where
  advances := advances_writeName t v
  names m id hid _ := by
    unfold final writeName Store.locate
    cases hbinder : m.store.binder? m.scope.chain t.lexeme with
    | none => rfl
    | some id' =>
      have hbinds := List.find?_some hbinder
      by_cases heq : id = id'
      · subst heq
        dsimp only
        rw [Store.frame_define _ _ _ _ _ hid, if_pos rfl, Frame.names_define,
          if_pos ((Frame.binds_iff ..).1 hbinds)]
      · exact congrArg Frame.names (Store.frame_define_of_ne _ heq _ _)

theorem declaresIn_defineName (name : String) (v : Value) :
    DeclaresIn true (defineName name v) where
  advances := advances_defineName name v
  names _ _ _ hinner := congrArg Frame.names (Store.frame_define_of_ne _ (hinner rfl) _ _)

theorem declaresIn_makeFunction (name : Option String) (parameters : List Token)
    (body : List Stmt) : DeclaresIn inner (makeFunction name parameters body) :=
  declaresIn_of_store (advances_makeFunction name parameters body) fun _ => rfl

/-- What is declared in a new frame is declared in none of those that there were. -/
theorem DeclaresIn.inNew {enter : Eval Scope} {act : Eval α} (henter : enter.Advances)
    (h : DeclaresIn true act)
    (hnew : ∀ m : Machine, ∃ (outer : Scope) (frame : Frame) (log : Array Event),
      enter m = .ok (outer.enter m.store.size) { m with store := m.store.add frame, log }) :
    DeclaresIn inner (do
      let scope ← enter
      within scope act) where
  advances := henter.bind fun scope => h.advances.within scope
  names m id hid _ := by
    obtain ⟨outer, frame, log, heq⟩ := hnew m
    have hne : id ≠ m.store.size := Nat.ne_of_lt hid
    have hnames := h.names
      { m with store := m.store.add frame, scope := outer.enter m.store.size, log } id
      (by simpa using Nat.lt_succ_of_lt hid) fun _ => hne
    dsimp only at hnames
    rw [Store.frame_add, if_neg hne] at hnames
    rw [final_bind_of_ok heq, final_within, ← hnames]

/-! ### Statements in order and loops -/

theorem declaresIn_runAll {run : Stmt → Eval Flow} (h : ∀ s, DeclaresIn inner (run s))
    (ss : List Stmt) : DeclaresIn inner (runAll run ss) := by
  induction ss with
  | nil => exact declaresIn_pure _
  | cons s ss ih =>
    refine (h s).bind fun flow => ?_
    cases flow with
    | normal => exact ih
    | breaking | continuing | returning => exact declaresIn_pure _

theorem declaresIn_repeatWhile {condition : Eval Value} {body : Eval Flow}
    (hcondition : DeclaresIn inner condition) (hbody : DeclaresIn inner body) (count : Nat) :
    DeclaresIn inner (repeatWhile condition body count) := by
  induction count with
  | zero => exact declaresIn_throw _
  | succ count ih =>
    refine hcondition.bind fun v => ?_
    split
    · refine hbody.bind fun flow => ?_
      cases flow with
      | normal | continuing => exact ih
      | breaking | returning => exact declaresIn_pure _
    · exact declaresIn_pure _

theorem declaresIn_checkCall (config : Config) (paren : Token) (f : Value)
    (arguments : List Value) : DeclaresIn inner (checkCall config paren f arguments) := by
  unfold checkCall
  split
  · exact declaresIn_throw _
  · split
    · refine (declaresIn_of_store advances_get fun _ => rfl).bind fun m => ?_
      split
      · exact declaresIn_pure _
      · exact declaresIn_throw _
    · exact declaresIn_throw _

theorem declaresIn_write (text : String) : DeclaresIn inner (write text) := by
  refine declaresIn_of_store (advances_write text) fun m => ?_
  unfold final write
  dsimp only
  cases m.sink.refusal? text.toUTF8 <;> rfl

theorem declaresIn_result (flow : Flow) : DeclaresIn inner flow.result := by
  cases flow with
  | normal | returning => exact declaresIn_pure _
  | breaking | continuing => exact declaresIn_throw _

end Eval

open Eval

/-! ## Evaluation -/

/-- Expressions and calls declare no names in frames that there were, and a statement only in the
innermost one, and none if it binds nothing. -/
structure Declaring (config : Config) (fuel : Nat) : Prop where
  evaluate : ∀ e, DeclaresIn false (evaluate config fuel e)
  execute : ∀ {inner : Bool} s, inner = true ∨ s.bindsNothing = true →
    DeclaresIn inner (execute config fuel s)
  invoke : ∀ c vs, DeclaresIn false (invoke config fuel c vs)

namespace Declaring

variable {config : Config} {fuel : Nat} (h : Declaring config fuel) {inner : Bool}

include h

theorem evaluateOption (e : Option Expr) :
    DeclaresIn false (Scripting.evaluateOption config fuel e) := by
  cases e with
  | some e => exact h.evaluate e
  | none => exact declaresIn_pure _

theorem executeOption (s : Option Stmt) (hs : inner = true ∨ Stmt.optionBindsNothing s = true) :
    DeclaresIn inner (Scripting.executeOption config fuel s) := by
  cases s with
  | some s => exact h.execute s hs
  | none => exact declaresIn_pure _

theorem runAll (ss : List Stmt) :
    DeclaresIn true (Scripting.runAll (Scripting.execute config fuel) ss) :=
  declaresIn_runAll (fun s => h.execute s (.inl rfl)) ss

theorem evaluate_succ (e : Expr) : DeclaresIn false (Scripting.evaluate config (fuel + 1) e) := by
  cases e <;> rw [Scripting.evaluate, paced_eq]
  case literal => exact declaresIn_pure _
  case group => exact h.evaluate _
  case read name => exact declaresIn_readName name
  case unary => exact (h.evaluate _).bind fun _ => declaresIn_liftAt _ _
  case binary =>
    exact (h.evaluate _).bind fun _ => (h.evaluate _).bind fun _ => declaresIn_liftAt _ _
  case logical =>
    refine (h.evaluate _).bind fun l => ?_
    split
    · exact declaresIn_pure _
    · exact h.evaluate _
  case assign =>
    refine (h.evaluate _).bind fun v => ?_
    exact (declaresIn_writeName _ v).bind fun _ => declaresIn_pure _
  case call _ paren callee arguments =>
    refine (h.evaluate callee).bind fun f =>
      (DeclaresIn.mapM h.evaluate arguments).bind fun vs => ?_
    exact (declaresIn_checkCall config paren f vs).bind fun c => (h.invoke c vs).counted
  case function => exact declaresIn_makeFunction _ _ _

theorem execute_succ (s : Stmt) (hs : inner = true ∨ s.bindsNothing = true) :
    DeclaresIn inner (Scripting.execute config (fuel + 1) s) := by
  cases s
  case block _ body =>
    rw [execute_block]
    exact (h.runAll body).inNew advances_enterBlock fun m => ⟨_, _, m.log, rfl⟩
  case expression =>
    rw [Scripting.execute, paced_eq]
    exact (h.evaluate _).mono.bind fun _ => declaresIn_pure _
  case function =>
    obtain rfl : inner = true := hs.resolve_right Bool.false_ne_true
    rw [Scripting.execute, paced_eq]
    refine (declaresIn_makeFunction _ _ _).bind fun f => ?_
    exact (declaresIn_defineName _ f).bind fun _ => declaresIn_pure _
  case branch _ condition whenTrue whenFalse =>
    have hs' := hs.imp_right fun hboth => (Bool.and_eq_true _ _).mp hboth
    rw [execute_branch]
    refine (h.evaluate condition).mono.bind fun v => ?_
    split
    · exact h.execute whenTrue (hs'.imp_right And.left)
    · exact h.executeOption whenFalse (hs'.imp_right And.right)
  case loop _ condition body =>
    rw [Scripting.execute, paced_eq]
    exact declaresIn_repeatWhile (h.evaluate condition).mono (h.execute body hs) fuel
  case leave _ _ value =>
    rw [execute_leave]
    exact (h.evaluateOption value).mono.bind fun _ => declaresIn_pure _
  case define _ name initial =>
    obtain rfl : inner = true := hs.resolve_right Bool.false_ne_true
    rw [execute_define]
    refine (h.evaluateOption initial).mono.bind fun v => ?_
    exact (declaresIn_defineName _ v).bind fun _ => declaresIn_pure _
  case breakLoop | continueLoop =>
    rw [Scripting.execute, paced_eq]
    exact declaresIn_pure _

theorem invoke_succ (callee : Callable) (vs : List Value) :
    DeclaresIn false (Scripting.invoke config (fuel + 1) callee vs) := by
  cases callee
  case script identity f =>
    rw [invoke_script, ← bind_assoc]
    refine DeclaresIn.bind ?_ declaresIn_result
    refine (h.runAll f.body).inNew ?_ fun m => ?_
    · intro m
      obtain ⟨log, heq⟩ := enterCall_eq config f vs m
      rw [final_of_ok heq]
      exact ⟨Store.extends_add .., rfl, rfl, Nat.le_refl _, rfl⟩
    · obtain ⟨log, heq⟩ := enterCall_eq config f vs m
      exact ⟨_, _, log, heq⟩
  case native _ f =>
    rw [Scripting.invoke, paced_eq]
    cases haction : config.host f vs with
    | value v => exact declaresIn_pure _
    | fault d => exact declaresIn_throw _
    | ioFault fault => exact declaresIn_throw _
    | write text result => exact (declaresIn_write text).bind fun _ => declaresIn_pure _
    | call callee vs => exact h.invoke callee vs
    | readClock =>
      exact (declaresIn_of_store advances_newReading fun _ => rfl).bind fun _ => declaresIn_pure _

end Declaring

/-- So it is however deep evaluation may go. -/
theorem declaring (config : Config) (fuel : Nat) : Declaring config fuel := by
  induction fuel with
  | zero =>
    exact ⟨fun _ => declaresIn_throw _, fun _ _ => declaresIn_throw _,
      fun _ _ => declaresIn_throw _⟩
  | succ fuel ih => exact ⟨ih.evaluate_succ, ih.execute_succ, ih.invoke_succ⟩

/-- Behind a computation that declares no names where there were frames, each name is bound in the
frame of the scope in which it was bound before. -/
theorem Eval.DeclaresIn.binder? {α : Type} {act : Eval α} (h : DeclaresIn false act) {m : Machine}
    (hscope : ∀ id ∈ m.scope.chain, id < m.store.size) (name : String) :
    (act.final m).store.binder? (act.final m).scope.chain name =
      m.store.binder? m.scope.chain name := by
  have hbinds : ∀ id ∈ m.scope.chain, ((act.final m).store.frame id).binds name =
      (m.store.frame id).binds name := by
    intro id hid
    have hnames := h.names m id (hscope id hid) fun hinner => absurd hinner Bool.false_ne_true
    rw [Bool.eq_iff_iff, Frame.binds_iff, Frame.binds_iff, hnames]
  rw [(h.advances m).scope]
  unfold Store.binder?
  revert hbinds
  generalize m.scope.chain = ids
  intro hbinds
  induction ids with
  | nil => rfl
  | cons id ids ih =>
    rw [List.forall_mem_cons] at hbinds
    rw [List.find?_cons, List.find?_cons, hbinds.1, ih hbinds.2]

end Scripting
