import Scripting.Proofs.Machine.Closed

/-!
# What no computation undoes

* `Store.Extends` : frames may come, and names in them, but none goes;
* `Machine.Later` : a machine that another one can become: its scope and its calls are the same, and
  its store extends the other's (`refl`, `trans`);
* `Eval.final` : the machine in which a computation ends (`Eval.final_of_ok`, and so on);
* `Eval.Advances` : however the computation ends, the machine is a later one;
* `closed_advances`, `advancing` : so it is with every evaluation;
* `callDepth_of_evaluate`, and so on : as many calls are in progress behind one as before it.
-/

namespace Scripting

set_option autoImplicit false

/-! ## Stores that grow -/

namespace Frame

theorem names_put (name : String) (value : Value) (bs : List (String × Value)) :
    (put name value bs).map Prod.fst =
      if name ∈ bs.map Prod.fst then bs.map Prod.fst else bs.map Prod.fst ++ [name] := by
  induction bs with
  | nil => rfl
  | cons b bs ih =>
    obtain ⟨n, v⟩ := b
    by_cases h : n = name
    · simp [put, h]
    · by_cases hmem : name ∈ bs.map Prod.fst
      · rw [if_pos hmem] at ih
        simp only [put, if_neg h, List.map_cons, ih, List.mem_cons, hmem, or_true, if_true]
      · rw [if_neg hmem] at ih
        simp only [put, if_neg h, List.map_cons, ih, List.mem_cons, Ne.symm h, hmem, or_self,
          if_false, List.cons_append]

/-- A name that is new comes behind all others. -/
theorem names_define (f : Frame) (name : String) (value : Value) :
    (f.define name value).names = if name ∈ f.names then f.names else f.names ++ [name] :=
  names_put name value f.bindings

theorem names_prefix_define (f : Frame) (name : String) (value : Value) :
    f.names <+: (f.define name value).names := by
  rw [names_define]
  split
  · exact List.prefix_refl _
  · exact List.prefix_append ..

theorem mem_names_define (f : Frame) (name : String) (value : Value) (n : String) :
    n ∈ (f.define name value).names ↔ n = name ∨ n ∈ f.names := by
  rw [names_define]
  split
  · rename_i h
    constructor
    · exact .inr
    · rintro (rfl | hn)
      · exact h
      · exact hn
  · rw [List.mem_append, List.mem_singleton, or_comm]

theorem isSome_get? (name : String) (bs : List (String × Value)) :
    (get? name bs).isSome ↔ name ∈ bs.map Prod.fst := by
  induction bs with
  | nil => simp [get?]
  | cons b bs ih =>
    obtain ⟨n, v⟩ := b
    by_cases h : n = name
    · simp [get?, h]
    · simp [get?, h, ih, Ne.symm h]

/-- A frame binds its names. -/
theorem binds_iff (f : Frame) (name : String) : f.binds name = true ↔ name ∈ f.names :=
  isSome_get? name f.bindings

theorem mem_names_defineAll (f : Frame) (bs : List (String × Value)) (n : String) :
    n ∈ (f.defineAll bs).names ↔ n ∈ f.names ∨ n ∈ bs.map Prod.fst := by
  induction bs generalizing f with
  | nil => simp [defineAll]
  | cons b bs ih =>
    show n ∈ ((f.define b.1 b.2).defineAll bs).names ↔ _
    rw [ih, mem_names_define, List.map_cons, List.mem_cons, or_assoc, or_left_comm]

/-- The frame of a call with as many arguments as parameters binds the parameters. -/
theorem mem_names_callFrame {parameters : List String} {vs : List Value}
    (hlen : parameters.length = vs.length) (n : String) :
    n ∈ (callFrame parameters vs).names ↔ n ∈ parameters := by
  rw [callFrame_eq, mem_names_defineAll, List.map_fst_zip (Nat.le_of_eq hlen)]
  exact or_iff_right nofun

end Frame

namespace Store

/-- Frames may come, and names behind those in a frame, but none goes. -/
structure Extends (s s' : Store) : Prop where
  size : s.size ≤ s'.size
  names : ∀ id < s.size, (s.frame id).names <+: (s'.frame id).names

namespace Extends

variable {s s' s'' : Store}

theorem refl (s : Store) : s.Extends s := ⟨Nat.le_refl _, fun _ _ => List.prefix_refl _⟩

theorem trans (h : s.Extends s') (h' : s'.Extends s'') : s.Extends s'' where
  size := Nat.le_trans h.size h'.size
  names id hid := (h.names id hid).trans (h'.names id (Nat.lt_of_lt_of_le hid h.size))

theorem mem {id : FrameId} {n : String} (h : s.Extends s') (hid : id < s.size)
    (hn : n ∈ (s.frame id).names) : n ∈ (s'.frame id).names :=
  (h.names id hid).subset hn

end Extends

theorem extends_add (s : Store) (f : Frame) : s.Extends (s.add f) where
  size := by rw [size_add]; exact Nat.le_succ _
  names id hid := ⟨[], by rw [List.append_nil, frame_add, if_neg (Nat.ne_of_lt hid)]⟩

theorem extends_define (s : Store) (i : FrameId) (name : String) (value : Value) :
    s.Extends (s.define i name value) where
  size := Nat.le_of_eq (size_define ..).symm
  names id hid := by
    by_cases h : id = i
    · subst h
      rw [frame_define _ _ _ _ _ hid, if_pos rfl]
      exact Frame.names_prefix_define ..
    · exact ⟨[], by rw [List.append_nil, frame_define_of_ne s h]⟩

end Store

/-! ## Machines that go on -/

/-- What another machine is that this one can become between two points of the same scope. -/
structure Machine.Later (m m' : Machine) : Prop where
  store : m.store.Extends m'.store
  scope : m'.scope = m.scope
  callDepth : m'.callDepth = m.callDepth
  issued : m.issued ≤ m'.issued
  flushFails : m'.sink.flushFails = m.sink.flushFails

namespace Machine.Later

variable {m m' m'' : Machine}

theorem refl (m : Machine) : m.Later m := ⟨.refl _, rfl, rfl, Nat.le_refl _, rfl⟩

theorem trans (h : m.Later m') (h' : m'.Later m'') : m.Later m'' where
  store := h.store.trans h'.store
  scope := h'.scope.trans h.scope
  callDepth := h'.callDepth.trans h.callDepth
  issued := Nat.le_trans h.issued h'.issued
  flushFails := h'.flushFails.trans h.flushFails

end Machine.Later

/-! ## Computations -/

namespace Eval

variable {α β : Type}

/-- The machine in which a computation ends, be it with a result or halted. -/
def final (act : Eval α) (m : Machine) : Machine :=
  match act m with
  | .ok _ m' => m'
  | .error _ m' => m'

section

variable {act : Eval α} {m m' : Machine} {a : α} {halt : Halt}

theorem final_of_ok (hact : act m = .ok a m') : act.final m = m' := by
  rw [final, hact]

theorem final_of_error (hact : act m = .error halt m') : act.final m = m' := by
  rw [final, hact]

theorem final_bind_of_ok (hact : act m = .ok a m') {next : α → Eval β} :
    (act >>= next).final m = (next a).final m' := by
  rw [final, bind_of_ok hact, final]

theorem final_bind_of_error (hact : act m = .error halt m') {next : α → Eval β} :
    (act >>= next).final m = m' :=
  final_of_error (bind_of_error hact)

end

/-- However the computation ends, the machine is a later one. -/
def Advances (act : Eval α) : Prop := ∀ m : Machine, m.Later (act.final m)

theorem Advances.of_ok {act : Eval α} (h : act.Advances) {m m' : Machine} {a : α}
    (hact : act m = .ok a m') : m.Later m' :=
  final_of_ok hact ▸ h m

theorem Advances.of_error {act : Eval α} (h : act.Advances) {m m' : Machine} {halt : Halt}
    (hact : act m = .error halt m') : m.Later m' :=
  final_of_error hact ▸ h m

theorem advances_pure (a : α) : (pure a : Eval α).Advances := Machine.Later.refl

theorem advances_throw (halt : Halt) : (throw halt : Eval α).Advances := Machine.Later.refl

theorem advances_get : (get : Eval Machine).Advances := Machine.Later.refl

theorem Advances.bind {act : Eval α} {next : α → Eval β} (h : act.Advances)
    (hnext : ∀ a, (next a).Advances) : (act >>= next).Advances := by
  intro m
  cases hact : act m with
  | ok a m' =>
    rw [final_bind_of_ok hact]
    exact (h.of_ok hact).trans (hnext a m')
  | error halt m' =>
    rw [final_bind_of_error hact]
    exact h.of_error hact

theorem advances_readName (t : Token) : (readName t).Advances := by
  intro m
  unfold final readName
  cases m.store.read m.scope t <;> exact .refl m

theorem advances_writeName (t : Token) (v : Value) : (writeName t v).Advances := by
  intro m
  unfold final writeName
  cases m.store.locate m.scope t with
  | ok id => exact ⟨Store.extends_define .., rfl, rfl, Nat.le_refl _, rfl⟩
  | error d => exact .refl m

theorem advances_defineName (name : String) (v : Value) : (defineName name v).Advances :=
  fun _ => ⟨Store.extends_define .., rfl, rfl, Nat.le_refl _, rfl⟩

theorem advances_makeFunction (name : Option String) (parameters : List Token)
    (body : List Stmt) : (makeFunction name parameters body).Advances :=
  fun _ => ⟨.refl _, rfl, rfl, Nat.le_succ _, rfl⟩

theorem advances_newScope (outer : Scope) (frame : Frame) : (newScope outer frame).Advances :=
  fun _ => ⟨Store.extends_add .., rfl, rfl, Nat.le_refl _, rfl⟩

theorem Advances.within {act : Eval α} (h : act.Advances) (scope : Scope) :
    (within scope act).Advances := by
  intro m
  have hm := h { m with scope }
  unfold final Eval.within at *
  cases hact : act { m with scope } with
  | ok a m' =>
    rw [hact] at hm
    exact ⟨hm.store, rfl, hm.callDepth, hm.issued, hm.flushFails⟩
  | error halt m' =>
    rw [hact] at hm
    exact ⟨hm.store, rfl, hm.callDepth, hm.issued, hm.flushFails⟩

theorem Advances.counted {act : Eval α} (h : act.Advances) : (counted act).Advances := by
  intro m
  have hm := h { m with callDepth := m.callDepth + 1 }
  unfold final Eval.counted at *
  cases hact : act { m with callDepth := m.callDepth + 1 } with
  | ok a m' =>
    rw [hact] at hm
    exact ⟨hm.store, hm.scope, by simp [hm.callDepth], hm.issued, hm.flushFails⟩
  | error halt m' =>
    rw [hact] at hm
    exact ⟨hm.store, hm.scope, by simp [hm.callDepth], hm.issued, hm.flushFails⟩

theorem advances_write (text : String) : (write text).Advances := by
  intro m
  unfold final write
  dsimp only
  cases m.sink.refusal? text.toUTF8 <;> exact ⟨.refl _, rfl, rfl, Nat.le_refl _, rfl⟩

theorem advances_flush : flush.Advances := by
  intro m
  unfold final flush
  cases m.sink.flush <;> exact .refl m

theorem advances_tell (e : Event) : (tell e).Advances :=
  fun _ => ⟨.refl _, rfl, rfl, Nat.le_refl _, rfl⟩

theorem advances_newReading : newReading.Advances :=
  fun _ => ⟨.refl _, rfl, rfl, Nat.le_refl _, rfl⟩

theorem advances_enterBlock : enterBlock.Advances :=
  advances_get.bind fun _ => advances_newScope _ _

theorem checkCall_advances (config : Config) (paren : Token) (f : Value) (arguments : List Value) :
    (checkCall config paren f arguments).Advances := by
  unfold checkCall
  split
  · exact advances_throw _
  · split
    · refine advances_get.bind fun m => ?_
      split
      · exact advances_pure _
      · exact advances_throw _
    · exact advances_throw _

theorem closed_advances (config : Config) : Closed config fun _ act => act.Advances where
  pure := advances_pure
  throw := advances_throw
  bind := Advances.bind
  within scope h := h.within scope
  counted := Advances.counted
  readName := advances_readName
  writeName := advances_writeName
  defineName := advances_defineName
  makeFunction := advances_makeFunction
  newScope := advances_newScope
  enterBlock := advances_enterBlock
  checkCall := checkCall_advances config
  write := advances_write
  flush := advances_flush
  tell := advances_tell
  newReading := advances_newReading

end Eval

/-! ## Evaluation -/

open Eval

/-- No evaluation undoes anything, however deep it may go. -/
theorem advancing (config : Config) (fuel : Nat) :
    HoldsAt config (fun _ act => act.Advances) fuel :=
  (closed_advances config).evaluations fuel

theorem runProgram_advances (config : Config) (fuel : Nat) (statements : List Stmt) :
    (runProgram config fuel statements).Advances :=
  (closed_advances config).runProgram fuel statements

/-! ## Calls in progress -/

section

variable {config : Config} {fuel : Nat} {m m' : Machine}

theorem callDepth_of_evaluate {e : Expr} {v : Value}
    (h : evaluate config fuel e m = .ok v m') : m'.callDepth = m.callDepth :=
  ((advancing config fuel).evaluate e |>.of_ok h).callDepth

theorem callDepth_of_execute {s : Stmt} {flow : Flow}
    (h : execute config fuel s m = .ok flow m') : m'.callDepth = m.callDepth :=
  ((advancing config fuel).execute s |>.of_ok h).callDepth

theorem callDepth_of_mapM {es : List Expr} {vs : List Value}
    (h : es.mapM (evaluate config fuel) m = .ok vs m') : m'.callDepth = m.callDepth :=
  ((closed_advances config).mapM (advancing config fuel).evaluate es |>.of_ok h).callDepth

end

end Scripting
