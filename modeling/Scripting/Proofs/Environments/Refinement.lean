import Scripting.Proofs.Environments.Histories

/-!
# Environments as maps that are shared

* `History.store`, `History.scope` : the store behind a history, and the scope that each environment
  is;
* `History.read`, `History.write`, `History.own?`, `History.names`, `History.depth` : what is seen
  of an environment;
* `History.frame_eq` : the frame of an environment holds what the history tells of it;
* `History.RefinesMaps` : what holds of environments, told by their history only;
* `History.refines_maps` : it holds behind every history.

The frame of an environment has the number of the environment.
-/

namespace Scripting

set_option autoImplicit false

namespace History

variable {n : Nat}

/-! ## Environments -/

/-- The scope that the environment `e` is. -/
def scope : {n : Nat} → History n → Nat → Scope
  | _, start, e => .single e
  | n + 1, new before, e => if e = n then .single n else before.scope e
  | n + 1, child before parent, e =>
    if e = n then (before.scope parent).enter n else before.scope e
  | _, define before _ _ _, e => before.scope e
  | _, assign before _ _ _, e => before.scope e
  | _, get before _ _, e => before.scope e

/-- The store behind a history. -/
def store : {n : Nat} → History n → Store
  | _, start => .empty
  | _, new before => before.store.add .empty
  | _, child before _ => before.store.add .empty
  | _, define before e name v => before.store.define (before.scope e).inner name v
  | _, assign before e t v =>
    match before.store.write (before.scope e) t v with
    | .ok s => s
    | .error _ => before.store
  | _, get before _ _ => before.store

/-- The value of a name seen from an environment. -/
def read (h : History n) (e : Nat) (t : Token) : Except Diagnostic Value :=
  h.store.read (h.scope e) t

/-- What comes of assigning a value from an environment. -/
def write (h : History n) (e : Nat) (t : Token) (v : Value) : Except Diagnostic Store :=
  h.store.write (h.scope e) t v

/-- The value of a name in the own scope of an environment. -/
def own? (h : History n) (e : Nat) (name : String) : Option Value :=
  (h.store.frame (h.scope e).inner).lookup? name

/-- The names of the own scope of an environment, as they are listed. -/
def names (h : History n) (e : Nat) : List String := (h.store.frame (h.scope e).inner).names

/-- The number of environments around an environment. -/
def depth (h : History n) (e : Nat) : Nat := (h.scope e).depth

/-! ## Frames -/

/-- The scope of an environment is made of the environments above it. -/
theorem chain_scope (h : History n) {e : Nat} (he : e < n) : (h.scope e).chain = h.above e := by
  induction h generalizing e with
  | start => exact absurd he (Nat.not_lt_zero e)
  | @new n before ih =>
    rw [scope, above]
    split
    · rfl
    · exact ih (by omega)
  | @child n before parent ih =>
    rw [scope, above]
    split
    · rw [Scope.chain_enter, ih parent.isLt]
    · exact ih (by omega)
  | define before _ _ _ ih => exact ih he
  | assign before _ _ _ ih => exact ih he
  | get before _ _ ih => exact ih he

theorem inner_scope (h : History n) {e : Nat} (he : e < n) : (h.scope e).inner = e := by
  have hchain := h.chain_scope he
  rw [h.above_eq he] at hchain
  exact (List.cons.inj hchain).1

end History

/-- Writing finds the frame and defines the name there, or is at fault. -/
theorem Store.write_eq (s : Store) (scope : Scope) (t : Token) (v : Value) : s.write scope t v =
    match s.binder? scope.chain t.lexeme with
    | some id => .ok (s.define id t.lexeme v)
    | none => .error (undefinedAt t) := by
  unfold write locate
  cases s.binder? scope.chain t.lexeme <;> rfl

namespace History

variable {n : Nat}

theorem size_store (h : History n) : h.store.size = n := by
  induction h with
  | start => rfl
  | new before ih => rw [store, Store.size_add, ih]
  | child before _ ih => rw [store, Store.size_add, ih]
  | define before _ _ _ ih => rw [store, Store.size_define, ih]
  | assign before e t v ih =>
    rw [store, Store.write_eq]
    cases before.store.binder? (before.scope e).chain t.lexeme with
    | some id => rw [Store.size_define, ih]
    | none => exact ih
  | get before _ _ ih => exact ih

/-- Where the frames hold what the history tells, the nearest scope is the frame that is found. -/
theorem binder?_eq {h : History n} (hframes : ∀ s x, (h.store.frame s).lookup? x = h.last? s x)
    {e : Nat} (he : e < n) (x : String) :
    h.store.binder? (h.scope e).chain x = h.nearest? e x := by
  unfold Store.binder? nearest? Frame.binds
  simp only [h.chain_scope he, hframes]

theorem lookup?_defined {s : Store} {i : FrameId} (hi : i < s.size) (x : String) (v : Value)
    (id : FrameId) (y : String) : ((s.define i x v).frame id).lookup? y =
      if id = i ∧ y = x then some v else (s.frame id).lookup? y := by
  rw [Store.frame_define _ _ _ _ _ hi]
  by_cases h : id = i
  · subst h
    simp
  · simp [h]

/-- The frame of an environment holds the values stored last in it. -/
theorem lookup?_frame (h : History n) (s : Nat) (x : String) :
    (h.store.frame s).lookup? x = h.last? s x := by
  induction h generalizing s x with
  | start => rfl
  | new before ih =>
    rw [store, Store.frame_add, last?, ← ih]
    split
    · rename_i hs
      rw [before.store.frame_of_size_le (Nat.le_of_eq hs.symm)]
    · rfl
  | child before _ ih =>
    rw [store, Store.frame_add, last?, ← ih]
    split
    · rename_i hs
      rw [before.store.frame_of_size_le (Nat.le_of_eq hs.symm)]
    · rfl
  | define before e name v ih =>
    have hsize : (e : Nat) < before.store.size := before.size_store.symm ▸ e.isLt
    rw [store, before.inner_scope e.isLt, lookup?_defined hsize, last?, ih]
  | assign before e t v ih =>
    rw [store, Store.write_eq, binder?_eq ih e.isLt, last?_assign]
    cases hnearest : before.nearest? e t.lexeme with
    | none => simp [ih]
    | some i =>
      have hi : i < before.store.size := before.size_store.symm ▸ nearest?_lt hnearest
      rw [lookup?_defined hi, ih]
      simp [eq_comm]
  | get before _ _ ih => exact ih s x

theorem binder?_store (h : History n) {e : Nat} (he : e < n) (x : String) :
    h.store.binder? (h.scope e).chain x = h.nearest? e x := binder?_eq h.lookup?_frame he x

/-- A name is listed where it was defined first. -/
theorem eraseDups_concat (xs : List String) (x : String) : (xs ++ [x]).eraseDups =
    if x ∈ xs.eraseDups then xs.eraseDups else xs.eraseDups ++ [x] := by
  rw [List.eraseDups_append]
  by_cases h : x ∈ xs
  · simp [List.removeAll, h]
  · simp [List.removeAll, h, List.eraseDups_cons]

/-- The frame of an environment lists the names in the order in which they were first defined. -/
theorem names_frame (h : History n) (s : Nat) :
    (h.store.frame s).names = (h.defined s).eraseDups := by
  induction h generalizing s with
  | start => rfl
  | new before ih =>
    rw [store, Store.frame_add, defined, ← ih]
    split
    · rename_i hs
      rw [before.store.frame_of_size_le (Nat.le_of_eq hs.symm)]
    · rfl
  | child before _ ih =>
    rw [store, Store.frame_add, defined, ← ih]
    split
    · rename_i hs
      rw [before.store.frame_of_size_le (Nat.le_of_eq hs.symm)]
    · rfl
  | define before e name v ih =>
    have hsize : (e : Nat) < before.store.size := before.size_store.symm ▸ e.isLt
    rw [store, before.inner_scope e.isLt, Store.frame_define _ _ _ _ _ hsize, defined]
    by_cases hs : s = e
    · rw [if_pos hs, if_pos hs, Frame.names_define, eraseDups_concat, ih, hs]
    · rw [if_neg hs, if_neg hs, ih]
  | assign before e t v ih =>
    rw [store, Store.write_eq, before.binder?_store e.isLt, defined, ← ih]
    cases hnearest : before.nearest? e t.lexeme with
    | none => rfl
    | some i =>
      obtain ⟨w, hw⟩ := exists_last?_of_nearest? hnearest
      rw [← before.lookup?_frame] at hw
      by_cases hs : s = i
      · -- the name has its place already
        have hmem : t.lexeme ∈ (before.store.frame i).names := by
          rw [← Frame.binds_iff, Frame.binds, hw]
          rfl
        have hi : i < before.store.size := before.size_store.symm ▸ nearest?_lt hnearest
        rw [hs, Store.frame_define _ _ _ _ _ hi, if_pos rfl, Frame.names_define, if_pos hmem]
      · rw [Store.frame_define_of_ne _ hs]
  | get before _ _ ih => exact ih s

/-! ## What is seen of environments -/

/-- The value seen under a name is the one stored last in the nearest scope that binds it. -/
theorem lookup?_store (h : History n) {e : Nat} (he : e < n) (x : String) :
    h.store.lookup? (h.scope e) x = (h.nearest? e x).bind fun s => h.last? s x := by
  simp only [Store.lookup?_eq, h.binder?_store he, h.lookup?_frame]

theorem own?_eq (h : History n) {e : Nat} (he : e < n) (x : String) :
    h.own? e x = h.last? e x := by
  rw [own?, h.inner_scope he, h.lookup?_frame]

theorem names_eq (h : History n) {e : Nat} (he : e < n) :
    h.names e = (h.defined e).eraseDups := by
  rw [names, h.inner_scope he, h.names_frame]

theorem read_eq_ok_iff (h : History n) {e : Nat} (he : e < n) (t : Token) (v : Value) :
    h.read e t = .ok v ↔ ∃ s, h.nearest? e t.lexeme = some s ∧ h.last? s t.lexeme = some v := by
  unfold read Store.read
  rw [h.lookup?_store he, ← Option.bind_eq_some_iff]
  cases (h.nearest? e t.lexeme).bind fun s => h.last? s t.lexeme <;> simp

theorem read_eq_error_iff (h : History n) {e : Nat} (he : e < n) (t : Token) (d : Diagnostic) :
    h.read e t = .error d ↔ d = Store.undefinedAt t ∧ h.nearest? e t.lexeme = none := by
  unfold read Store.read
  rw [h.lookup?_store he]
  cases hnearest : h.nearest? e t.lexeme with
  | none => simp [eq_comm]
  | some s =>
    obtain ⟨v, hv⟩ := exists_last?_of_nearest? hnearest
    simp [hv]

/-- A value can be assigned where a name is found; else there is the same fault as in reading. -/
theorem write_cases (h : History n) {e : Nat} (he : e < n) (t : Token) (v : Value) :
    (∃ i s, h.nearest? e t.lexeme = some i ∧ h.write e t v = .ok s) ∨
      h.nearest? e t.lexeme = none ∧ h.write e t v = .error (Store.undefinedAt t) := by
  unfold write
  rw [Store.write_eq, h.binder?_store he]
  cases h.nearest? e t.lexeme with
  | none => exact .inr ⟨rfl, rfl⟩
  | some i => exact .inl ⟨i, _, rfl, rfl⟩

/-- An assignment binds no name that was not bound before. -/
theorem nearest?_assign (h : History n) (e : Fin n) (t : Token) (v : Value) (e' : Nat)
    (x : String) : (h.assign e t v).nearest? e' x = h.nearest? e' x := by
  have hbinds (s : Nat) : ((h.assign e t v).last? s x).isSome = (h.last? s x).isSome := by
    rw [last?_assign]
    split
    · rename_i hs
      obtain ⟨w, hw⟩ := exists_last?_of_nearest? hs.1
      rw [hs.2, hw]
      rfl
    · rfl
  unfold nearest?
  simp only [hbinds]
  rfl

theorem defined_grows {m : Nat} {h : History m} {h' : History n} (later : h.Until h') (e : Nat) :
    h.defined e <+: h'.defined e := by
  induction later with
  | refl => exact List.prefix_refl _
  | new _ ih => exact ih
  | child _ _ ih => exact ih
  | define _ e' x v ih =>
    rw [defined]
    split
    · exact ih.trans (List.prefix_append ..)
    · exact ih
  | assign _ _ _ _ ih => exact ih
  | get _ _ _ ih => exact ih

theorem Until.le {m : Nat} {h : History m} {h' : History n} (later : h.Until h') : m ≤ n := by
  induction later with
  | refl => exact Nat.le_refl m
  | new _ ih => exact Nat.le_succ_of_le ih
  | child _ _ ih => exact Nat.le_succ_of_le ih
  | define _ _ _ _ ih => exact ih
  | assign _ _ _ _ ih => exact ih
  | get _ _ _ ih => exact ih

/-! ## Maps that are shared -/

/-- What is seen of environments is what their history tells: each has a map of its own, from names
to the values stored last, and shares the maps of the environments around it. -/
structure RefinesMaps (h : History n) : Prop where
  /-- From an environment outwards there are itself and those around its parent. -/
  outwards : ∀ e : Fin n, (h.scope e).chain =
    e.val :: ((h.parent? e).map fun parent => (h.scope parent).chain).getD []
  /-- No environment comes twice on the way outwards, since each is older than the one before. -/
  acyclic : ∀ e : Fin n, (h.scope e).chain.Pairwise (· > ·)
  depth : ∀ e : Fin n, h.depth e = ((h.parent? e).map fun parent => h.depth parent + 1).getD 0
  /-- A name has the value stored last in the nearest scope that binds it. -/
  read_ok : ∀ (e : Fin n) (t : Token) (v : Value), h.read e t = .ok v ↔
    ∃ s, h.nearest? e t.lexeme = some s ∧ h.last? s t.lexeme = some v
  /-- It is at fault if no scope on the way outwards binds it, and only then. -/
  read_error : ∀ (e : Fin n) (t : Token) (d : Diagnostic), h.read e t = .error d ↔
    d = Store.undefinedAt t ∧ ∀ s ∈ (h.scope e).chain, h.last? s t.lexeme = none
  /-- A value can be assigned to the names that can be read. -/
  write_ok : ∀ (e : Fin n) (t : Token) (v : Value),
    (∃ s, h.write e t v = .ok s) ↔ ∃ w, h.read e t = .ok w
  /-- An assignment that is at fault changes nothing. -/
  write_error : ∀ (e : Fin n) (t : Token) (v : Value) (d : Diagnostic), h.write e t v = .error d →
    h.read e t = .error d ∧ (h.assign e t v).store = h.store
  /-- One that is not changes one binding of the nearest scope. -/
  write_own : ∀ (e : Fin n) (t : Token) (v : Value) (i : Nat), h.nearest? e t.lexeme = some i →
    ∀ (s : Fin n) (x : String), (h.assign e t v).own? s x =
      if s = i ∧ x = t.lexeme then some v else h.own? s x
  /-- All environments with this nearest scope see the new value, and nothing else is changed. -/
  write_seen : ∀ (e : Fin n) (t : Token) (v : Value) (i : Nat), h.nearest? e t.lexeme = some i →
    ∀ (e' : Fin n) (t' : Token), (h.assign e t v).read e' t' =
      if h.nearest? e' t.lexeme = some i ∧ t'.lexeme = t.lexeme then .ok v else h.read e' t'
  write_names : ∀ (e : Fin n) (t : Token) (v : Value) (s : Fin n),
    (h.assign e t v).names s = h.names s
  /-- A definition changes one binding of the own scope. -/
  define_own : ∀ (e : Fin n) (x : String) (v : Value) (s : Fin n) (y : String),
    (h.define e x v).own? s y = if s = e ∧ y = x then some v else h.own? s y
  define_names : ∀ (e : Fin n) (x : String) (v : Value) (s : Fin n), s ≠ e →
    (h.define e x v).names s = h.names s
  /-- Names are listed in the order in which they were first defined. -/
  names : ∀ e : Fin n, h.names e = (h.defined e).eraseDups
  /-- And so what is listed once is listed first ever after. -/
  names_prefix : ∀ {k : Nat} (h' : History k), h.Until h' → ∀ e : Fin n, h.names e <+: h'.names e

/-- From an environment outwards there are itself and those around its parent. -/
theorem chain_eq (h : History n) (e : Fin n) : (h.scope e).chain =
    e.val :: ((h.parent? e).map fun parent => (h.scope parent).chain).getD [] := by
  rw [h.chain_scope e.isLt, h.above_eq e.isLt]
  cases hp : h.parent? e with
  | none => rfl
  | some p =>
    have hlt : p < n := (h.parent?_lt hp).trans e.isLt
    simp only [Option.map_some, Option.getD_some, h.chain_scope hlt]

theorem depth_eq (h : History n) (e : Fin n) :
    h.depth e = ((h.parent? e).map fun parent => h.depth parent + 1).getD 0 := by
  have hlength := (h.scope e).length_chain
  rw [h.chain_eq e] at hlength
  cases hp : h.parent? e with
  | none =>
    rw [hp] at hlength
    exact (Nat.succ.inj hlength).symm
  | some p =>
    have hparent := (h.scope p).length_chain
    simp only [hp, Option.map_some, Option.getD_some, List.length_cons] at hlength ⊢
    unfold depth
    omega

/-- An assignment that is at fault changes nothing. -/
theorem assign_of_error (h : History n) {e : Fin n} {t : Token} {v : Value} {d : Diagnostic}
    (hd : h.write e t v = .error d) :
    h.read e t = .error d ∧ (h.assign e t v).store = h.store := by
  rcases h.write_cases e.isLt t v with ⟨i, s, -, hwrite⟩ | ⟨hnearest, hwrite⟩
  · rw [hwrite] at hd
    cases hd
  · rw [hwrite] at hd
    cases hd
    refine ⟨(h.read_eq_error_iff e.isLt t _).2 ⟨rfl, hnearest⟩, ?_⟩
    rw [store]
    unfold write at hwrite
    rw [hwrite]

/-- Behind an assignment, all environments with the same nearest scope see the new value. -/
theorem read_assign (h : History n) {e : Fin n} {t : Token} {v : Value} {i : Nat}
    (hi : h.nearest? e t.lexeme = some i) (e' : Fin n) (t' : Token) :
    (h.assign e t v).read e' t' =
      if h.nearest? e' t.lexeme = some i ∧ t'.lexeme = t.lexeme then .ok v else h.read e' t' := by
  unfold read Store.read
  rw [lookup?_store _ e'.isLt, lookup?_store _ e'.isLt, nearest?_assign]
  simp only [last?_assign, hi, Option.some_inj]
  by_cases hname : t'.lexeme = t.lexeme
  · rw [hname]
    cases h.nearest? e' t.lexeme with
    | none => simp
    | some j =>
      by_cases hj : i = j
      · simp [hj]
      · simp [hj, Ne.symm hj]
  · simp [hname]

theorem eraseDups_prefix {xs ys : List String} (h : xs <+: ys) :
    xs.eraseDups <+: ys.eraseDups := by
  obtain ⟨zs, rfl⟩ := h
  rw [List.eraseDups_append]
  exact List.prefix_append ..

/-- Environments refine maps that are shared, whatever has been done to them. -/
theorem refines_maps (h : History n) : h.RefinesMaps where
  outwards := h.chain_eq
  acyclic e := by
    rw [h.chain_scope e.isLt]
    exact (h.pairwise_above e).1
  depth := h.depth_eq
  read_ok e t v := h.read_eq_ok_iff e.isLt t v
  read_error e t d := by
    rw [h.read_eq_error_iff e.isLt, h.nearest?_eq_none_iff, h.chain_scope e.isLt]
  write_ok e t v := by
    simp only [h.read_eq_ok_iff e.isLt]
    rcases h.write_cases e.isLt t v with ⟨i, s, hnearest, hwrite⟩ | ⟨hnearest, hwrite⟩
    · have hv := exists_last?_of_nearest? hnearest
      simp [hnearest, hwrite, hv]
    · simp [hnearest, hwrite]
  write_error e t v d := h.assign_of_error
  write_own e t v i hi s x := by
    rw [own?_eq _ s.isLt, own?_eq _ s.isLt, last?_assign, hi]
    simp only [Option.some_inj, eq_comm]
  write_seen e t v i hi e' t' := h.read_assign hi e' t'
  write_names e t v s := by
    rw [names_eq _ s.isLt, names_eq _ s.isLt, defined]
  define_own e x v s y := by
    rw [own?_eq _ s.isLt, own?_eq _ s.isLt, last?]
    simp only [Fin.val_inj]
  define_names e x v s hs := by
    rw [names_eq _ s.isLt, names_eq _ s.isLt, defined, if_neg (Fin.val_ne_of_ne hs)]
  names e := h.names_eq e.isLt
  names_prefix h' later e := by
    rw [h.names_eq e.isLt, h'.names_eq (e.isLt.trans_le later.le)]
    exact eraseDups_prefix (defined_grows later e)

end History

end Scripting
