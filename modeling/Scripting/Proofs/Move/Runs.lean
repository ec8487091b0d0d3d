import Scripting.Proofs.Machine.Runs
import Scripting.Proofs.Move.Evaluation
import Scripting.Proofs.Move.Programs

/-!
# Runs one after the other

* `runStatements` : the statements of a program without the flush behind them (`runProgram_append`);
* `Store.Keeps`, `MovedBehind` : the tokens of the functions in a store, which stay where they are,
  and those of statements that are moved;
* `Interpreter.run_joined` : a run of two texts, joined by a line feed, is a run of the first and
  then one of the second.
-/

namespace Scripting

set_option autoImplicit false

open Eval

/-! ## Statements without a flush -/

/-- Runs the statements of a program in order. -/
def runStatements (config : Config) (fuel : Nat) : List Stmt → Eval Unit
  | [] => pure ()
  | s :: rest => do
    match ← execute config fuel s with
    | .normal => runStatements config fuel rest
    | .breaking keyword => faultAt keyword .strayBreak
    | .continuing keyword => faultAt keyword .strayContinue
    | .returning keyword _ => faultAt keyword .strayReturn

/-- A program behind another is run behind it. -/
theorem runProgram_append (config : Config) (fuel : Nat) (p q : List Stmt) :
    runProgram config fuel (p ++ q) =
      (do runStatements config fuel p; runProgram config fuel q) := by
  induction p with
  | nil => rfl
  | cons s rest ih =>
    rw [List.cons_append, runProgram, runStatements, bind_assoc]
    refine bind_congr fun flow => ?_
    cases flow with
    | normal => exact ih
    | breaking | continuing | returning => rfl

theorem runProgram_eq (config : Config) (fuel : Nat) (p : List Stmt) :
    runProgram config fuel p = (do runStatements config fuel p; flush) := by
  rw [← List.append_nil p, runProgram_append, List.append_nil, runProgram]

theorem runStatements_advances (config : Config) (fuel : Nat) (p : List Stmt) :
    (runStatements config fuel p).Advances := by
  induction p with
  | nil => exact advances_pure ()
  | cons s rest ih =>
    refine ((advancing config fuel).execute s).bind fun flow => ?_
    cases flow with
    | normal => exact ih
    | breaking | continuing | returning => exact advances_throw _

theorem runStatements_alike {M : Shift → Token → Prop} {config : Config}
    (ignores : config.host.IgnoresPlaces) (fuel : Nat) (σ : Shift) (ss : List Stmt)
    (hss : ∀ t ∈ Stmt.tokensOfAll ss, M σ t) :
    Alike M config.host (fun _ _ => True) (runStatements config fuel ss)
      (runStatements config fuel (ss.map (Stmt.move σ))) := by
  induction ss with
  | nil => exact alike_pure trivial
  | cons s rest ih =>
    rw [Stmt.tokensOfAll, List.forall_mem_append] at hss
    refine ((evaluatesAlike ignores fuel).execute σ s hss.1).bind fun flow flow' hflow => ?_
    cases hflow with
    | normal => exact ih hss.2
    | breaking ht => exact alike_faultAt ht _
    | continuing ht => exact alike_faultAt ht _
    | returning ht => exact alike_faultAt ht _

/-- So it is with a program and the flush behind it. -/
theorem runProgram_alike {M : Shift → Token → Prop} {config : Config}
    (ignores : config.host.IgnoresPlaces) (fuel : Nat) (σ : Shift) (ss : List Stmt)
    (hss : ∀ t ∈ Stmt.tokensOfAll ss, M σ t) :
    Alike M config.host (fun _ _ => True) (runProgram config fuel ss)
      (runProgram config fuel (ss.map (Stmt.move σ))) := by
  rw [runProgram_eq, runProgram_eq]
  exact (runStatements_alike ignores fuel σ ss hss).bind fun _ _ _ => alike_flush

/-! ## Nothing moved -/

/-- No token is moved. -/
def Unmoved : Shift → Token → Prop := fun σ _ => σ = .none

theorem map_move_none (ss : List Stmt) : ss.map (Stmt.move .none) = ss := by
  rw [← Stmt.moveAll_eq, Stmt.moveAll_none]

theorem Diagnostic.Alike.eq {host : Host} {d d' : Diagnostic} (h : d.Alike Unmoved host d') :
    d' = d := by
  cases h with
  | atToken cause h => rw [show _ = Shift.none from h, Token.move_none]
  | reported => rfl

theorem Halt.Alike.eq {host : Host} {e e' : Halt} (h : e.Alike Unmoved host e') : e' = e := by
  cases h with
  | fault h => rw [h.eq]
  | io | outOfFuel => rfl

/-! ## The tokens of a store -/

/-- A function bound in the frame has the token in its body. -/
def Frame.Keeps (f : Frame) (t : Token) : Prop :=
  ∃ name identity g, (name, .callable (.script identity g)) ∈ f.bindings ∧
    t ∈ Stmt.tokensOfAll g.body

/-- A function bound in the store has the token in its body. -/
def Store.Keeps (s : Store) (t : Token) : Prop := ∃ id, (s.frame id).Keeps t

section

variable {M M' : Shift → Token → Prop}

theorem Frame.Alike.mono {f f' : Frame} (h : f.Alike M f')
    (hM : ∀ σ t, f.Keeps t → M σ t → M' σ t) : f.Alike M' f' := by
  have hmem := (List.forall₂_and_left f.bindings f'.bindings).2 ⟨fun _ hb => hb, h⟩
  refine hmem.imp ?_
  rintro ⟨name, v⟩ ⟨name', v'⟩ ⟨hb, hname, hv⟩
  refine ⟨hname, ?_⟩
  cases hv with
  | @script identity g _ hg =>
    obtain ⟨σ, hbody, htokens⟩ := hg.body
    exact .script { hg with
      body := ⟨σ, hbody, fun t ht => hM σ t ⟨name, identity, g, hb, ht⟩ (htokens t ht)⟩ }
  | same hv => exact .same hv

theorem Store.Alike.mono {s s' : Store} (h : s.Alike M s')
    (hM : ∀ σ t, s.Keeps t → M σ t → M' σ t) : s.Alike M' s' where
  size := h.size
  frame id := (h.frame id).mono fun σ t ht => hM σ t ⟨id, ht⟩

/-- A store is like itself, whatever is moved, if its own tokens stay where they are. -/
theorem Store.alike_refl {s : Store} (h : ∀ t, s.Keeps t → M .none t) : s.Alike M s where
  size := rfl
  frame id := by
    refine List.forall₂_same.2 fun b hb => ⟨rfl, ?_⟩
    obtain ⟨name, v⟩ := b
    rcases v with _ | _ | _ | _ | _ | ⟨identity, g⟩ | ⟨identity, f⟩
    case callable.script =>
      have hbody := (map_move_none g.body).symm
      exact .script ⟨rfl, rfl, rfl, .none, hbody, fun t ht => h t ⟨id, name, identity, g, hb, ht⟩⟩
    all_goals exact .same rfl

end

/-! ## Runs -/

/-- Outcomes that differ in the place of a fault only. -/
inductive Outcome.Alike (M : Shift → Token → Prop) (host : Host) : Outcome → Outcome → Prop
  | success : Alike M host success success
  | fault {d d' : Diagnostic} (h : d.Alike M host d') : Alike M host (fault d) (fault d')
  | ioFault (fault : IoFault) : Alike M host (ioFault fault) (ioFault fault)
  | outOfFuel : Alike M host outOfFuel outOfFuel

theorem Outcome.alike_ofHalt {M : Shift → Token → Prop} {host : Host} {e e' : Halt}
    (h : e.Alike M host e') : (ofHalt e).Alike M host (ofHalt e') := by
  cases h with
  | fault h => exact .fault h
  | io => exact .ioFault _
  | outOfFuel => exact .outOfFuel

/-- The names of a frame in order, each with its value as text. -/
def Frame.shown (f : Frame) : List (String × String) := f.bindings.map fun b => (b.1, b.2.text)

/-- Frames with the same names and values that look the same are shown the same. -/
theorem Frame.Matches.shown {N : String → String → Prop} {R : Value → Value → Prop} {f f' : Frame}
    (h : f.Matches N R f') (hN : ∀ n n', N n n' → n' = n) (hR : ∀ v v', R v v' → v.Looks v') :
    f'.shown = f.shown := by
  obtain ⟨bs⟩ := f
  obtain ⟨bs'⟩ := f'
  change List.Forall₂ _ bs bs' at h
  unfold Frame.shown
  dsimp only
  induction h with
  | nil => rfl
  | cons hb _ ih => rw [List.map_cons, List.map_cons, ih, hN _ _ hb.1, (hR _ _ hb.2).text]

namespace Interpreter

/-- What two interpreters have written is the same, and so are the global names and their values as
text. -/
structure SameEffect (i j : Interpreter) : Prop where
  written : j.machine.sink.written = i.machine.sink.written
  globals : j.globals.shown = i.globals.shown

/-- What can be seen of machines that are alike is the same. -/
theorem sameEffect_of_alike {M : Shift → Token → Prop} {i j : Interpreter}
    (h : i.machine.Alike M j.machine) : SameEffect i j where
  written := by rw [h.sink]
  globals := (h.store.frame globalFrame).frame_matches.shown (fun _ _ h => h) fun _ _ hv => hv.looks

section

variable {i : Interpreter} {fuel : Nat} {p : List Stmt} {m : Machine}

/-- Behind statements that are run to their end, the others are run. -/
theorem interpret_append_of_ok (h : runStatements i.config fuel p i.machine = .ok () m)
    (q : List Stmt) : i.interpret fuel (p ++ q) = { i with machine := m }.interpret fuel q := by
  obtain ⟨config, scriptName, machine⟩ := i
  change runStatements config fuel p machine = _ at h
  simp only [interpret, runProgram_append, bind_apply, h]

/-- Behind statements that halt, nothing is run. -/
theorem interpret_append_of_error {e : Halt}
    (h : runStatements i.config fuel p i.machine = .error e m) (q : List Stmt) :
    i.interpret fuel (p ++ q) =
      (.ofHalt e, { i with machine := m }.tell (.halted (reason e))) := by
  obtain ⟨config, scriptName, machine⟩ := i
  change runStatements config fuel p machine = _ at h
  simp only [interpret, runProgram_append, bind_apply, h]

theorem interpret_nil (i : Interpreter) (fuel : Nat) (h : i.machine.sink.flushFails = false) :
    i.interpret fuel [] = (.success, i) := by
  obtain ⟨config, scriptName, machine⟩ := i
  change machine.sink.flushFails = false at h
  simp [interpret, runProgram, flush, Sink.flush, h]

end

/-- Interpreters in machines that are alike give outcomes that are alike, if one runs statements and
the other runs them moved. -/
theorem interpret_alike {M : Shift → Token → Prop} {i j : Interpreter}
    (hconfig : j.config = i.config) (ignores : i.config.host.IgnoresPlaces)
    (h : i.machine.Alike M j.machine) (fuel : Nat) (σ : Shift) {ss : List Stmt}
    (hss : ∀ t ∈ Stmt.tokensOfAll ss, M σ t) :
    (i.interpret fuel ss).1.Alike M i.config.host
        (j.interpret fuel (ss.map (Stmt.move σ))).1 ∧
      SameEffect (i.interpret fuel ss).2 (j.interpret fuel (ss.map (Stmt.move σ))).2 := by
  obtain ⟨config, scriptName, machine⟩ := i
  obtain ⟨config', scriptName', machine'⟩ := j
  obtain rfl : config' = config := hconfig
  have hrun := runProgram_alike ignores fuel σ ss hss machine machine' h
  unfold interpret
  dsimp only at hrun ⊢
  revert hrun
  generalize runProgram config' fuel ss machine = r
  generalize runProgram config' fuel (ss.map (Stmt.move σ)) machine' = r'
  rintro (⟨-, hm⟩ | ⟨he, hm⟩)
  · exact ⟨.success, sameEffect_of_alike hm⟩
  · exact ⟨Outcome.alike_ofHalt he, sameEffect_of_alike { hm with }⟩

end Interpreter

/-- The tokens that `σ` moves are those of the statements `ss`; those of the functions in the store
`s` stay where they are. -/
def MovedBehind (s : Store) (σ : Shift) (ss : List Stmt) : Shift → Token → Prop :=
  fun τ t => (τ = .none ∧ s.Keeps t) ∨ (τ = σ ∧ t ∈ Stmt.tokensOfAll ss)

namespace Interpreter

/-- A run of two texts, joined by a line feed, is a run of the first and then one of the second: if
the first is run to its end, what comes of the second is the same but for the places of its tokens,
and if not, what comes of the first comes of both. -/
theorem run_joined (i : Interpreter) (fuel : Nat) {p q : String} {first second : List Stmt}
    (hp : Program.parse? p = .ok first) (hq : Program.parse? q = .ok second) (closed : IsClosed p)
    (ignores : i.config.host.IgnoresPlaces) (flushes : i.machine.sink.flushFails = false) :
    ((i.run fuel p).1 = .success →
      ((i.run fuel p).2.run fuel q).1.Alike
          (MovedBehind (i.run fuel p).2.machine.store (.behindLine p) second) i.config.host
          (i.run fuel (joined p q)).1 ∧
        SameEffect ((i.run fuel p).2.run fuel q).2 (i.run fuel (joined p q)).2) ∧
      ((i.run fuel p).1 ≠ .success →
        (i.run fuel (joined p q)).1 = (i.run fuel p).1 ∧
          SameEffect (i.run fuel p).2 (i.run fuel (joined p q)).2) := by
  obtain ⟨log, hrun⟩ := i.run_of_parse? fuel hp
  obtain ⟨log', hjoined⟩ := i.run_of_parse? fuel (Program.parse?_joined hp hq closed)
  rw [hrun, hjoined, ← List.append_nil first]
  -- the statements of the first text are the same in both runs, and so is what comes of them
  have hfirst := runStatements_alike ignores fuel .none first (M := Unmoved) (fun _ _ => rfl)
    { i.machine with log } { i.machine with log := log' }
    ⟨Store.alike_refl fun _ _ => rfl, rfl, rfl, rfl, rfl, rfl⟩
  have hadvances := runStatements_advances i.config fuel first { i.machine with log }
  rw [map_move_none] at hfirst
  unfold final at hadvances
  revert hfirst hadvances
  generalize hleft : runStatements i.config fuel first { i.machine with log } = r
  generalize hright : runStatements i.config fuel first { i.machine with log := log' } = r'
  rintro (⟨-, hm⟩ | ⟨he, hm⟩) hadvances
  · rename_i m m'
    obtain ⟨log'', hsecond⟩ := run_of_parse? { i with machine := m } fuel hq
    rw [interpret_append_of_ok hleft, List.append_nil, interpret_append_of_ok hright,
      interpret_nil _ _ (hadvances.flushFails.trans flushes), hsecond]
    refine ⟨fun _ => ?_, fun h => absurd rfl h⟩
    have hstore : m.store.Alike (MovedBehind m.store (.behindLine p) second) m'.store :=
      hm.store.mono fun σ t ht hσ => .inl ⟨hσ, ht⟩
    exact interpret_alike (i := { i with machine := { m with log := log'' } })
      (j := { i with machine := m' }) rfl ignores { hm with store := hstore } fuel _
      fun t ht => .inr ⟨rfl, ht⟩
  · rename_i e e' m m'
    rw [interpret_append_of_error hleft, List.append_nil, interpret_append_of_error hright, he.eq]
    refine ⟨fun h => ?_, fun _ => ⟨rfl, sameEffect_of_alike { hm with }⟩⟩
    cases e <;> cases h

/-- A function and a comment, and then a call of it in the second text, where `1` is printed before
a fault. The line of the fault is that behind the first text. -/
theorem run_joined_function :
    let i := Interpreter.new {} "session" {}
    let p := "let x = 1; fn f() \x7b return x; \x7d // one"
    let q := "print(f()); y;"
    let apart := (i.run 9 p).2.run 9 q
    let whole := i.run 9 (joined p q)
    ∃ second, Program.parse? q = .ok second ∧
      apart.1.Alike (MovedBehind (i.run 9 p).2.machine.store (.behindLine p) second)
          i.config.host whole.1 ∧
        SameEffect apart.2 whole.2 ∧
        apart.2.machine.sink.written = "1\n".toUTF8 ∧
        whole.2.machine.sink.written = "1\n".toUTF8 ∧
        apart.1.diagnostics.map (fun d => (d.message, d.line)) =
          [("Undefined variable 'y'.", some 1)] ∧
        whole.1.diagnostics.map (fun d => (d.message, d.line)) =
          [("Undefined variable 'y'.", some 2)] := by
  intro i p q apart whole
  have hp : (Program.parse? p).isOk = true := by decide +kernel
  have hq : (Program.parse? q).isOk = true := by decide +kernel
  obtain ⟨first, hfirst⟩ := Program.exists_of_isOk hp
  obtain ⟨second, hsecond⟩ := Program.exists_of_isOk hq
  have hclosed : IsClosed p := by decide +kernel
  have hsuccess : (i.run 9 p).1 = .success := by decide +kernel
  obtain ⟨houtcome, heffect⟩ :=
    (run_joined i 9 hfirst hsecond hclosed Host.standard_ignoresPlaces rfl).1 hsuccess
  exact ⟨second, hsecond, houtcome, heffect, by decide +kernel⟩

end Interpreter

end Scripting
