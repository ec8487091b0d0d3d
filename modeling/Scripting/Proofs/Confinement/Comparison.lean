import Scripting.Parser.Program

/-!
# Two readings of the same tokens

* `Comparison` : which surroundings of two readings belong together, and which faults excuse a
  difference between them;
* `Comparison.Agree c next n j p q` : of fewer than `n` tokens, the next with `next`, the parsers
  `p` and `q` give the same reading unless `p` finds a fault that excuses; what they leave is the
  end of these tokens, and a result has taken `j` tokens or more (`Agree.bind`, and one lemma for
  each parser);
* `Comparison.RulesAgree` : rules that agree, and agree again when they lie inside the productions
  (`RulesAgree.next`).

The rules inside a production are used behind a token that it has taken. So rules that agree on
fewer than `n` tokens give productions that agree on fewer than `n + 1`.
-/

namespace Scripting

set_option autoImplicit false

open Scripting.Parser

/-- All faults that came of a parser: those reported, and the one at which it stopped. -/
def Reading.faults {α : Type} (r : Reading α) : List Diagnostic :=
  r.reports ++ match r.result with
    | .ok _ => []
    | .error d => [d]

/-- How two readings of the same tokens are compared: which surroundings belong together, and which
faults of the first reading excuse that the second differs from it. -/
structure Comparison where
  Alike : Surroundings → Surroundings → List Token → Prop
  Excuse : Diagnostic → Prop
  ending : ∀ {s s' us}, Alike s s' us → s'.ending = s.ending ∧ s.ending.kind = .endOfInput
  suffix : ∀ {s s' us vs}, Alike s s' us → vs <:+ us → Alike s s' vs
  tooDeep : ∀ {s s' us}, Alike s s' us → maxNesting ≤ s.depth →
    maxNesting ≤ s'.depth ∨ ∀ t, Excuse (.atToken (.parse .tooMuchNesting) t)
  deeper : ∀ {s s' us}, Alike s s' us → s.depth < maxNesting → s'.depth < maxNesting ∧
    Alike { s with depth := s.depth + 1 } { s' with depth := s'.depth + 1 } us

/-- What comes of two parsers one behind the other. -/
theorem Parser.run_bind {α β : Type} (p : Parser α) (f : α → Parser β) (s : Surroundings)
    (us : List Token) : bind p f s us =
      match p s us with
      | ⟨.ok a, rest, reports⟩ =>
        ⟨(f a s rest).result, (f a s rest).rest, reports ++ (f a s rest).reports⟩
      | ⟨.error d, rest, reports⟩ => ⟨.error d, rest, reports⟩ := rfl

namespace Comparison

variable {α β ω : Type} {c : Comparison} {P : Token → Prop} {n m j k : Nat}

/-- The first reading of `us` has a fault that excuses, or both are the same, leave an end of `us`,
and have taken `j` tokens or more if there is a result. -/
def Same (c : Comparison) (j : Nat) (us : List Token) (r r' : Reading α) : Prop :=
  (∃ d ∈ r.faults, c.Excuse d) ∨
    r = r' ∧ r'.rest <:+ us ∧ ∀ a, r'.result = .ok a → r'.rest.length + j ≤ us.length

/-- The parsers give the same reading of fewer than `n` tokens, the next of which has `next`, and
take `j` tokens or more for a result. -/
def Agree (c : Comparison) (next : Token → Prop) (n j : Nat) (p q : Parser α) : Prop :=
  ∀ s s' us, c.Alike s s' us → us.length < n → next (us.headD s.ending) →
    c.Same j us (p s us) (q s' us)

/-- The parsers agree whatever the next token is. -/
abbrev AgreeAll (c : Comparison) (n j : Nat) (p q : Parser α) : Prop :=
  c.Agree (fun _ => True) n j p q

/-! ## Sequences -/

theorem Agree.mono {p q : Parser α} (h : c.Agree P n j p q) (hn : m ≤ n) (hj : k ≤ j) :
    c.Agree P m k p q := by
  intro s s' us hs hlen hnext
  rcases h s s' us hs (by omega) hnext with hd | ⟨heq, hrest, htaken⟩
  · exact .inl hd
  · refine .inr ⟨heq, hrest, fun a ha => ?_⟩
    have := htaken a ha
    omega

/-- Whether a token is taken does not matter. -/
theorem Agree.any {p q : Parser α} (h : c.Agree P n j p q) : c.Agree P n 0 p q :=
  h.mono (Nat.le_refl _) (Nat.zero_le _)

theorem AgreeAll.next {p q : Parser α} (h : c.AgreeAll n j p q) : c.Agree P n j p q :=
  fun s s' us hs hlen _ => h s s' us hs hlen trivial

theorem agree_pure (a : α) : c.Agree P n 0 (pure a) (pure a) :=
  fun _ _ us _ _ _ => .inr ⟨rfl, List.suffix_refl us, fun _ _ => Nat.le_refl _⟩

/-- A fault of the first part is one of the whole. -/
theorem faults_subset_bind (p : Parser α) (f : α → Parser β) (s : Surroundings)
    (us : List Token) : (p s us).faults ⊆ (bind p f s us).faults := by
  intro d hd
  rw [run_bind]
  rcases hr : p s us with ⟨e | a, rest, reports⟩
  · rwa [hr] at hd
  · rw [hr] at hd
    exact List.mem_append_left _ (List.mem_append_left _ (by simpa [Reading.faults] using hd))

theorem Agree.bind {p q : Parser α} {f g : α → Parser β} (h : c.Agree P n j p q)
    (hf : ∀ a, c.AgreeAll (n - j) k (f a) (g a)) : c.Agree P n (j + k) (p >>= f) (q >>= g) := by
  intro s s' us hs hlen hnext
  rcases h s s' us hs hlen hnext with ⟨d, hd, hexcuse⟩ | ⟨heq, hrest, htaken⟩
  · exact .inl ⟨d, faults_subset_bind p f s us hd, hexcuse⟩
  rw [run_bind, run_bind, heq]
  rcases hq : q s' us with ⟨e | a, rest, reports⟩
  · rw [hq] at hrest
    exact .inr ⟨rfl, hrest, fun _ h => by cases h⟩
  rw [hq] at hrest htaken
  have hshort : rest.length + j ≤ us.length := htaken a rfl
  rcases hf a s s' rest (c.suffix hs hrest) (by omega) trivial with
    ⟨d, hd, hexcuse⟩ | ⟨heq', hrest', htaken'⟩
  · refine .inl ⟨d, ?_, hexcuse⟩
    simp only [Reading.faults, List.append_assoc] at hd ⊢
    exact List.mem_append_right _ hd
  · refine .inr ⟨by simp only [heq'], hrest'.trans hrest, fun b hb => ?_⟩
    have := htaken' b hb
    simp only
    omega

/-- A second part that need not take a token. -/
theorem Agree.andThen {p q : Parser α} {f g : α → Parser β} (h : c.Agree P n j p q)
    (hf : ∀ a, c.AgreeAll (n - j) 0 (f a) (g a)) : c.Agree P n j (p >>= f) (q >>= g) :=
  h.bind hf

/-- A first part that need not take a token. -/
theorem Agree.before {p q : Parser α} {f g : α → Parser β} (h : c.Agree P n 0 p q)
    (hf : ∀ a, c.AgreeAll n k (f a) (g a)) : c.Agree P n k (p >>= f) (q >>= g) :=
  (h.bind hf).mono (Nat.le_refl _) (Nat.le_of_eq (Nat.zero_add k).symm)

/-! ## The next token -/

/-- What begins with a token that was taken. -/
theorem Same.of_cons {u : Token} {us : List Token} {r r' : Reading α} (h : c.Same (j - 1) us r r') :
    c.Same j (u :: us) r r' := by
  rcases h with hd | ⟨heq, hrest, htaken⟩
  · exact .inl hd
  · refine .inr ⟨heq, hrest.trans (List.suffix_cons u us), fun a ha => ?_⟩
    have := htaken a ha
    simp only [List.length_cons]
    omega

/-- Behind a look at the next token, what is read begins with it. -/
theorem agree_peek_bind {f g : Token → Parser α}
    (h : ∀ t, P t → c.Agree (· = t) n j (f t) (g t)) :
    c.Agree P n j (peek >>= f) (peek >>= g) := by
  intro s s' us hs hlen hnext
  rw [run_bind, run_bind]
  simp only [peek, (c.ending hs).1, List.nil_append]
  exact h _ hnext s s' us hs hlen rfl

/-- The next token can be dropped if it is not the end. -/
theorem agree_skip_bind {t : Token} (ht : t.kind ≠ .endOfInput) {f g : Unit → Parser α}
    (h : c.AgreeAll (n - 1) (j - 1) (f ()) (g ())) :
    c.Agree (· = t) n j (skip >>= f) (skip >>= g) := by
  intro s s' us hs hlen hnext
  cases us with
  | nil => exact absurd (c.ending hs).2 (by rwa [← hnext] at ht)
  | cons u us =>
    simp only [List.length_cons] at hlen
    exact (h s s' us (c.suffix hs (List.suffix_cons u us)) (by omega) trivial).of_cons

/-- Two ways on, one behind the next token and one before it. -/
theorem agree_accept?_bind {op? : Kind → Option ω} {f g : Option (ω × Token) → Parser α}
    (hsome : ∀ x, c.AgreeAll (n - 1) (j - 1) (f (some x)) (g (some x)))
    (hnone : c.AgreeAll n j (f none) (g none)) :
    c.Agree P n j (accept? op? >>= f) (accept? op? >>= g) := by
  intro s s' us hs hlen _
  cases us with
  | nil => exact hnone s s' [] hs hlen trivial
  | cons u us =>
    rw [run_bind, run_bind]
    simp only [accept?]
    cases op? u.kind with
    | none => exact hnone s s' (u :: us) hs hlen trivial
    | some op =>
      simp only [List.length_cons] at hlen
      exact (hsome (op, u) s s' us (c.suffix hs (List.suffix_cons u us)) (by omega) trivial).of_cons

theorem agree_accept_bind {kind : Kind} {f g : Option Token → Parser α}
    (hsome : ∀ t, c.AgreeAll (n - 1) (j - 1) (f (some t)) (g (some t)))
    (hnone : c.AgreeAll n j (f none) (g none)) :
    c.Agree P n j (accept kind >>= f) (accept kind >>= g) := by
  intro s s' us hs hlen _
  cases us with
  | nil => exact hnone s s' [] hs hlen trivial
  | cons u us =>
    rw [run_bind, run_bind]
    simp only [accept]
    by_cases hk : u.kind = kind
    · simp only [if_pos hk]
      simp only [List.length_cons] at hlen
      exact (hsome u s s' us (c.suffix hs (List.suffix_cons u us)) (by omega) trivial).of_cons
    · simp only [if_neg hk]
      exact hnone s s' (u :: us) hs hlen trivial

theorem agree_failAt (fault : ParseFault) (t : Token) :
    c.Agree P n j (failAt fault t : Parser α) (failAt fault t) :=
  fun _ _ us _ _ _ => .inr ⟨rfl, List.suffix_refl us, fun _ h => by cases h⟩

theorem agree_reportAt (fault : ParseFault) (t : Token) :
    c.Agree P n 0 (reportAt fault t) (reportAt fault t) :=
  fun _ _ us _ _ _ => .inr ⟨rfl, List.suffix_refl us, fun _ _ => Nat.le_refl _⟩

theorem agree_fail (fault : ParseFault) : c.Agree P n j (fail fault : Parser α) (fail fault) :=
  agree_peek_bind fun t _ => agree_failAt fault t

theorem agree_consume (kind : Kind) (fault : ParseFault) :
    c.Agree P n 1 (consume kind fault) (consume kind fault) :=
  agree_accept_bind (fun t => agree_pure t) (agree_fail fault)

/-- Other parts behind a token that has to be there. -/
theorem agree_consume_bind {kind : Kind} {fault : ParseFault} {f g : Token → Parser α}
    (h : ∀ t, c.AgreeAll (n - 1) (j - 1) (f t) (g t)) :
    c.Agree P n j (consume kind fault >>= f) (consume kind fault >>= g) :=
  ((agree_consume kind fault).bind h).mono (Nat.le_refl _) (by omega)

/-! ## Depth and recovery -/

theorem agree_nested {p q : Parser α} (h : c.AgreeAll n j p q) :
    c.Agree P n j (nested p) (nested q) := by
  intro s s' us hs hlen _
  by_cases hdeep : maxNesting ≤ s.depth
  · rcases c.tooDeep hs hdeep with hdeep' | hexcuse
    · simp only [nested, if_pos hdeep, if_pos hdeep']
      exact agree_fail (P := fun _ => True) .tooMuchNesting s s' us hs hlen trivial
    · refine .inl ⟨_, ?_, hexcuse (us.headD s.ending)⟩
      simp only [nested, if_pos hdeep]
      exact List.mem_singleton_self _
  · obtain ⟨hdeep', halike⟩ := c.deeper hs (by omega)
    simp only [nested, if_neg hdeep, if_neg (Nat.not_le.2 hdeep')]
    exact h _ _ us halike hlen trivial

theorem resumeAfter_suffix (last : Token) (ts : List Token) : resumeAfter last ts <:+ ts := by
  fun_induction resumeAfter last ts with
  | case1 => exact List.suffix_refl _
  | case2 => exact List.suffix_refl _
  | case3 _ u us _ ih => exact ih.trans (List.suffix_cons u us)

theorem resume_suffix (ts : List Token) : resume ts <:+ ts := by
  cases ts with
  | nil => exact List.suffix_refl _
  | cons t ts => exact (resumeAfter_suffix t ts).trans (List.suffix_cons t ts)

/-- Before the end, a token is taken in any case: by what is read, or else by the recovery. -/
theorem agree_recovering {p q : Parser α} (h : c.AgreeAll n 1 p q) :
    c.Agree (·.kind ≠ .endOfInput) n 1 (recovering p) (recovering q) := by
  intro s s' us hs hlen hnext
  rcases h s s' us hs hlen trivial with ⟨d, hd, hexcuse⟩ | ⟨heq, hrest, htaken⟩
  · refine .inl ⟨d, ?_, hexcuse⟩
    unfold recovering
    rcases hr : p s us with ⟨e | a, rest, reports⟩
    · simpa [hr, Reading.faults] using hd
    · simpa [hr, Reading.faults] using hd
  · simp only [recovering, heq]
    rcases hq : q s' us with ⟨e | a, rest, reports⟩
    · rw [hq] at hrest
      refine .inr ⟨rfl, (resume_suffix rest).trans hrest, fun _ _ => ?_⟩
      have hne : us ≠ [] := fun h => hnext (by rw [h]; exact (c.ending hs).2)
      have := length_resume_le rest
      have := hrest.length_le
      have := List.length_pos_iff.2 hne
      simp only at *
      omega
    · rw [hq] at hrest htaken
      exact .inr ⟨rfl, hrest, fun _ _ => htaken a rfl⟩

/-! ## Repetition -/

variable {b b' : Nat}

theorem agree_chainFrom {op? : Kind → Option ω} {join : ω → Token → α → α → α}
    {p q : Parser α} (h : c.AgreeAll n 1 p q) (hb : n ≤ b) (hb' : n ≤ b') (left : α) :
    c.AgreeAll n 0 (chainFrom op? join p b left) (chainFrom op? join q b' left) := by
  induction b generalizing n b' left with
  | zero => exact fun _ _ us _ hlen => by omega
  | succ b ih =>
    cases b' with
    | zero => exact fun _ _ us _ hlen => by omega
    | succ b' =>
      refine agree_accept?_bind (fun x => ?_) (agree_pure left)
      have h' : c.AgreeAll (n - 1) 1 p q := h.mono (by omega) (Nat.le_refl _)
      exact (h'.bind fun right =>
        (ih h' (by omega) (by omega) _).mono (Nat.sub_le _ _) (Nat.le_refl _)).mono
          (Nat.le_refl _) (Nat.zero_le _)

theorem agree_chain {op? : Kind → Option ω} {join : ω → Token → α → α → α}
    {p q : Parser α} (h : c.AgreeAll n 1 p q) (hb : n ≤ b) (hb' : n ≤ b') :
    c.AgreeAll n 1 (chain b op? join p) (chain b' op? join q) :=
  h.andThen fun left =>
    (agree_chainFrom h hb hb' left).mono (Nat.sub_le _ _) (Nat.le_refl _)

theorem agree_itemsFrom {p q : Parser α} (h : c.AgreeAll n 1 p q) (tooMany : ParseFault)
    (hb : n ≤ b) (hb' : n ≤ b') (count : Nat) :
    c.AgreeAll n 0 (itemsFrom p tooMany b count) (itemsFrom q tooMany b' count) := by
  induction b generalizing n b' count with
  | zero => exact fun _ _ us _ hlen => by omega
  | succ b ih =>
    cases b' with
    | zero => exact fun _ _ us _ hlen => by omega
    | succ b' =>
      have others : c.AgreeAll (n - 1 - 1) 0 (itemsFrom p tooMany b (count + 1))
          (itemsFrom q tooMany b' (count + 1)) :=
        ih (h.mono (by omega) (Nat.le_refl _)) (by omega) (by omega) _
      rw [itemsFrom, itemsFrom]
      split
      -- Both branches take the same turn, the first behind a report.
      focus refine agree_peek_bind fun t _ => (agree_reportAt tooMany t).andThen fun _ => ?_
      all_goals
        refine Agree.mono (j := 1) (h.andThen fun first => ?_) (Nat.le_refl _) (Nat.zero_le _)
        refine agree_accept_bind (fun _ => ?_) (agree_pure _)
        exact others.andThen fun _ => agree_pure _

theorem agree_items {p q : Parser α} (h : c.AgreeAll n 1 p q) (tooMany : ParseFault)
    (hb : n ≤ b) (hb' : n ≤ b') : c.AgreeAll n 0 (items b p tooMany) (items b' q tooMany) := by
  refine agree_peek_bind fun t _ => ?_
  split
  · exact agree_pure _
  · exact (agree_itemsFrom h tooMany hb hb' 0).next

theorem agree_declarations {p q : Parser (Option α)} (inBlock : Bool)
    (h : c.Agree (·.kind ≠ .endOfInput) n 1 p q) (hb : n ≤ b) (hb' : n ≤ b') :
    c.AgreeAll n 0 (declarations p inBlock b) (declarations q inBlock b') := by
  induction b generalizing n b' with
  | zero => exact fun _ _ us _ hlen => by omega
  | succ b ih =>
    cases b' with
    | zero => exact fun _ _ us _ hlen => by omega
    | succ b' =>
      refine agree_peek_bind fun t _ => ?_
      split
      · exact agree_pure _
      · rename_i hopen
        have first : c.Agree (· = t) n 1 p q := fun s s' us hs hlen ht =>
          h s s' us hs hlen fun hkind => hopen (.inl (ht ▸ hkind))
        refine (first.andThen fun _ => ?_).mono (Nat.le_refl _) (Nat.zero_le _)
        exact (ih (h.mono (Nat.sub_le _ _) (Nat.le_refl _)) (by omega) (by omega)).andThen
          fun _ => agree_pure _

end Comparison

/-! ## Productions -/

/-- The rules agree on fewer than `n` tokens, and repeat often enough for these. -/
structure Comparison.RulesAgree (c : Comparison) (n : Nat) (r r' : Rules) : Prop where
  bound : n ≤ r.bound ∧ n ≤ r'.bound
  expression : c.AgreeAll n 1 r.expression r'.expression
  assignment : c.AgreeAll n 1 r.assignment r'.assignment
  compound : c.AgreeAll n 1 r.compound r'.compound
  unary : c.AgreeAll n 1 r.unary r'.unary
  statement : c.AgreeAll n 1 r.statement r'.statement
  declaration : c.Agree (·.kind ≠ .endOfInput) n 1 r.declaration r'.declaration

namespace Production

open Comparison

variable {c : Comparison} {m n : Nat} {r r' : Rules}

section

variable (h : c.RulesAgree n r r')

include h

theorem agree_blockRest : c.AgreeAll n 1 (blockRest r) (blockRest r') := by
  have hbound : n ≤ r.bound + 1 ∧ n ≤ r'.bound + 1 := by have := h.bound; omega
  refine (agree_declarations true h.declaration hbound.1 hbound.2).before fun _ => ?_
  exact agree_consume_bind fun _ => agree_pure _

theorem agree_functionRest (beforeParameters beforeBody : ParseFault) :
    c.AgreeAll n 1 (functionRest r beforeParameters beforeBody)
      (functionRest r' beforeParameters beforeBody) := by
  have hbound : n - 1 ≤ r.bound + 1 ∧ n - 1 ≤ r'.bound + 1 := by have := h.bound; omega
  refine agree_consume_bind fun _ => ?_
  refine (agree_items (agree_consume _ _) _ hbound.1 hbound.2).before fun _ => ?_
  refine agree_consume_bind fun _ => agree_consume_bind fun _ => ?_
  exact ((agree_blockRest h).mono (by omega) (Nat.zero_le _)).andThen fun _ => agree_pure _

/-! ### Expressions -/

theorem agree_primary : c.AgreeAll (n + 1) 1 (primary r) (primary r') := by
  refine agree_peek_bind fun t _ => ?_
  split
  · rename_i value hvalue
    refine agree_skip_bind (fun hkind => ?_) (agree_pure _)
    simp [Token.value?, hkind] at hvalue
  · split
    · rename_i hkind
      exact agree_skip_bind (by simp [hkind]) (agree_pure _)
    · rename_i hkind
      refine agree_skip_bind (by simp [hkind]) (h.expression.any.before fun _ => ?_)
      exact agree_consume_bind fun _ => agree_pure _
    · exact agree_failAt _ _

theorem agree_callFrom {b b' : Nat} (hn : m ≤ n + 1) (hb : m ≤ b) (hb' : m ≤ b') (callee : Expr) :
    c.AgreeAll m 0 (callFrom r b callee) (callFrom r' b' callee) := by
  induction b generalizing m b' callee with
  | zero => exact fun _ _ us _ hlen => by omega
  | succ b ih =>
    cases b' with
    | zero => exact fun _ _ us _ hlen => by omega
    | succ b' =>
      have hbound : m - 1 ≤ r.bound + 1 ∧ m - 1 ≤ r'.bound + 1 := by have := h.bound; omega
      refine agree_accept_bind (fun _ => ?_) (agree_pure callee)
      have harguments : c.AgreeAll (m - 1) 1 r.expression r'.expression :=
        h.expression.mono (by omega) (Nat.le_refl _)
      refine (agree_items harguments _ hbound.1 hbound.2).before fun _ => ?_
      exact agree_consume_bind fun _ => ih (by omega) (by omega) (by omega) _

theorem agree_unary : c.AgreeAll (n + 1) 1 (unary r) (unary r') := by
  have hbound : n + 1 ≤ r.bound + 1 ∧ n + 1 ≤ r'.bound + 1 := by have := h.bound; omega
  refine agree_accept?_bind (fun _ => ?_) ?_
  · exact (agree_nested h.unary).any.before fun _ => agree_pure _
  · exact (agree_primary h).andThen fun _ =>
      agree_callFrom h (Nat.sub_le _ _) (by omega) (by omega) _

theorem agree_joined : c.AgreeAll (n + 1) 1 (joined r) (joined r') := by
  have hbound : n + 1 ≤ r.bound + 1 ∧ n + 1 ≤ r'.bound + 1 := by have := h.bound; omega
  unfold joined
  dsimp only
  induction Joint.levels with
  | nil => exact agree_unary h
  | cons op? levels ih => exact agree_chain ih hbound.1 hbound.2

theorem agree_compound : c.AgreeAll (n + 1) 1 (compound r) (compound r') := by
  refine (agree_joined h).andThen fun target => agree_accept?_bind (fun x => ?_) (agree_pure _)
  refine ((agree_nested h.compound).mono (Nat.sub_le _ _) (Nat.zero_le _)).before fun value => ?_
  cases target with
  | read name => exact agree_pure _
  | _ => exact (agree_reportAt _ _).before fun _ => agree_pure _

theorem agree_operand : c.AgreeAll (n + 1) 1 (operand r) (operand r') := by
  refine agree_accept_bind (fun keyword => ?_) (agree_compound h)
  exact (agree_functionRest h _ _).any.before fun _ => agree_pure _

theorem agree_assignment : c.AgreeAll (n + 1) 1 (assignment r) (assignment r') := by
  refine (agree_operand h).andThen fun target => agree_accept_bind (fun mark => ?_) (agree_pure _)
  refine ((agree_nested h.assignment).mono (Nat.sub_le _ _) (Nat.zero_le _)).before fun value => ?_
  cases target with
  | read name => exact agree_pure _
  | _ => exact (agree_reportAt _ _).before fun _ => agree_pure _

theorem agree_expression : c.AgreeAll (n + 1) 1 (expression r) (expression r') :=
  agree_nested (agree_assignment h)

/-! ### Statements -/

theorem agree_expressionStatement :
    c.AgreeAll (n + 1) 1 (expressionStatement r) (expressionStatement r') :=
  (agree_expression h).andThen fun _ => agree_consume_bind fun _ => agree_pure _

theorem agree_letRest (keyword : Token) :
    c.AgreeAll n 1 (letRest r keyword) (letRest r' keyword) := by
  refine agree_consume_bind fun name => Agree.before (k := 0) ?_ fun _ =>
    agree_consume_bind fun _ => agree_pure _
  refine agree_accept_bind (fun _ => ?_) (agree_pure _)
  exact (h.expression.mono (by omega) (Nat.zero_le _)).before fun _ => agree_pure _

theorem agree_clause (ending : Kind) : c.AgreeAll n 0 (clause r ending) (clause r' ending) := by
  refine agree_peek_bind fun t _ => ?_
  split
  · exact agree_pure _
  · exact (AgreeAll.next h.expression).any.before fun _ => agree_pure _

theorem agree_initialClause : c.AgreeAll n 1 (initialClause r) (initialClause r') := by
  refine agree_accept_bind (fun _ => agree_pure _) (agree_accept_bind (fun keyword => ?_) ?_)
  · exact ((agree_letRest h keyword).mono (by omega) (Nat.zero_le _)).before fun _ => agree_pure _
  · exact ((agree_expressionStatement h).mono (by omega) (Nat.le_refl _)).andThen
      fun _ => agree_pure _

theorem agree_forRest (keyword : Token) :
    c.AgreeAll n 1 (forRest r keyword) (forRest r' keyword) := by
  have hclause (m : Nat) (hm : m ≤ n) (ending : Kind) :
      c.AgreeAll m 0 (clause r ending) (clause r' ending) :=
    (agree_clause h ending).mono hm (Nat.le_refl _)
  refine agree_consume_bind fun _ => ?_
  refine ((agree_initialClause h).mono (by omega) (Nat.zero_le _)).before fun _ => ?_
  refine (hclause _ (by omega) _).before fun _ => agree_consume_bind fun _ => ?_
  refine (hclause _ (by omega) _).before fun _ => agree_consume_bind fun _ => ?_
  exact (h.statement.mono (by omega) (Nat.zero_le _)).before fun _ => agree_pure _

theorem agree_ifRest (keyword : Token) : c.AgreeAll n 1 (ifRest r keyword) (ifRest r' keyword) := by
  refine agree_consume_bind fun _ => ?_
  refine (h.expression.mono (by omega) (Nat.zero_le _)).before fun _ => ?_
  refine agree_consume_bind fun _ => ?_
  refine (h.statement.mono (by omega) (Nat.zero_le _)).before fun _ => ?_
  refine agree_accept_bind (fun _ => ?_) (agree_pure _)
  exact (h.statement.mono (by omega) (Nat.zero_le _)).before fun _ => agree_pure _

theorem agree_whileRest (keyword : Token) :
    c.AgreeAll n 1 (whileRest r keyword) (whileRest r' keyword) := by
  refine agree_consume_bind fun _ => ?_
  refine (h.expression.mono (by omega) (Nat.zero_le _)).before fun _ => ?_
  refine agree_consume_bind fun _ => ?_
  exact (h.statement.mono (by omega) (Nat.zero_le _)).before fun _ => agree_pure _

theorem agree_returnRest (keyword : Token) :
    c.AgreeAll n 1 (returnRest r keyword) (returnRest r' keyword) :=
  (agree_clause h _).before fun _ => agree_consume_bind fun _ => agree_pure _

theorem agree_statement : c.AgreeAll (n + 1) 1 (statement r) (statement r') := by
  refine agree_nested (agree_peek_bind fun t _ => ?_)
  have hskip {f g : Unit → Parser Stmt} (ht : t.kind ≠ .endOfInput)
      (hf : c.AgreeAll n 1 (f ()) (g ())) :
      c.Agree (· = t) (n + 1) 1 (skip >>= f) (skip >>= g) := agree_skip_bind ht hf.any
  split
  all_goals try rename_i hkind
  · exact hskip (by simp [hkind]) (agree_forRest h t)
  · exact hskip (by simp [hkind]) (agree_ifRest h t)
  · exact hskip (by simp [hkind]) (agree_returnRest h t)
  · exact hskip (by simp [hkind]) (agree_whileRest h t)
  · exact hskip (by simp [hkind]) (agree_consume_bind fun _ => agree_pure _)
  · exact hskip (by simp [hkind]) (agree_consume_bind fun _ => agree_pure _)
  · exact hskip (by simp [hkind]) ((agree_blockRest h).andThen fun _ => agree_pure _)
  · exact (agree_expressionStatement h).next

end

/-- If a function with a name is not next, then a variable or a statement is read. -/
theorem declarationForm_of_not_function {s : Surroundings} {ts : List Token}
    (hts : ∀ keyword name rest, ts = keyword :: name :: rest →
      ¬ (keyword.kind = .fnWord ∧ name.kind = .identifier)) :
    declarationForm r s ts = (do
      match ← accept .letWord with
      | some keyword => letRest r keyword
      | none => statement r) s ts := by
  have hnone : functionStart? s ts = ⟨.ok none, ts, []⟩ := by
    rcases ts with _ | ⟨keyword, _ | ⟨name, rest⟩⟩
    · rfl
    · rfl
    · exact if_neg (hts keyword name rest rfl)
  rw [declarationForm, run_bind, hnone]
  rfl

/-- If neither a function with a name nor a variable is next, a statement is read. -/
theorem declarationForm_of_not_let {s : Surroundings} {t : Token} {ts : List Token}
    (hts : ∀ keyword name rest, t :: ts = keyword :: name :: rest →
      ¬ (keyword.kind = .fnWord ∧ name.kind = .identifier)) (ht : t.kind ≠ .letWord) :
    declarationForm r s (t :: ts) = statement r s (t :: ts) := by
  rw [declarationForm_of_not_function hts, run_bind]
  simp [accept, ht]

/-- If a function with a name is next, its rest is read. -/
theorem declarationForm_of_function {s : Surroundings} {keyword name : Token} {rest : List Token}
    (hkeyword : keyword.kind = .fnWord) (hname : name.kind = .identifier) :
    declarationForm r s (keyword :: name :: rest) = (do
      let part ← functionRest r .expectedParenAfterFunctionName .expectedBraceBeforeFunction
      pure (Stmt.function (keyword.span.through part.closing.span) name part.parameters
        part.body)) s rest := by
  have hsome : functionStart? s (keyword :: name :: rest) =
      ⟨.ok (some (keyword, name)), rest, []⟩ := if_pos ⟨hkeyword, hname⟩
  rw [declarationForm, run_bind, hsome]
  rfl

/-- A word and a name that begin a function, or what is read if they are not next. -/
theorem agree_functionStart?_bind {α : Type} {m j : Nat} {f g : Option (Token × Token) → Parser α}
    (hsome : ∀ x, c.AgreeAll (m - 1) (j - 1) (f (some x)) (g (some x)))
    (hnone : c.AgreeAll m j (f none) (g none)) :
    c.AgreeAll m j (functionStart? >>= f) (functionStart? >>= g) := by
  intro s s' us hs hlen hnext
  rcases us with _ | ⟨keyword, _ | ⟨name, us⟩⟩
  · exact hnone s s' _ hs hlen hnext
  · exact hnone s s' _ hs hlen hnext
  rw [run_bind, run_bind]
  simp only [functionStart?]
  by_cases hk : keyword.kind = .fnWord ∧ name.kind = .identifier
  · simp only [if_pos hk]
    simp only [List.length_cons] at hlen
    have hsuffix : us <:+ keyword :: name :: us :=
      (List.suffix_cons name us).trans (List.suffix_cons keyword _)
    have hbehind := (hsome (keyword, name)).mono (Nat.le_refl _) (Nat.sub_le (j - 1) 1)
    exact (hbehind s s' us (c.suffix hs hsuffix) (by omega) trivial).of_cons.of_cons
  · simp only [if_neg hk]
    exact hnone s s' _ hs hlen hnext

variable (h : c.RulesAgree n r r')

include h

theorem agree_declarationForm : c.AgreeAll (n + 1) 1 (declarationForm r) (declarationForm r') := by
  refine agree_functionStart?_bind (fun x => ?_) (agree_accept_bind (fun keyword => ?_) ?_)
  · exact (agree_functionRest h _ _).any.before fun _ => agree_pure _
  · exact (agree_letRest h keyword).any
  · exact agree_statement h

end Production

/-- Productions around rules that agree do so on one token more. -/
theorem Comparison.RulesAgree.next {c : Comparison} {n : Nat} {r r' : Rules}
    (h : c.RulesAgree n r r') : c.RulesAgree (n + 1) r.next r'.next where
  bound := ⟨Nat.succ_le_succ h.bound.1, Nat.succ_le_succ h.bound.2⟩
  expression := Production.agree_expression h
  assignment := Production.agree_assignment h
  compound := Production.agree_compound h
  unary := Production.agree_unary h
  statement := Production.agree_statement h
  declaration := agree_recovering (Production.agree_declarationForm h)

/-- There are no readings of fewer than no tokens that could differ. -/
theorem Comparison.rulesAgree_zero (c : Comparison) (r r' : Rules) : c.RulesAgree 0 r r' where
  bound := ⟨Nat.zero_le _, Nat.zero_le _⟩
  expression _ _ _ _ hlen := absurd hlen (Nat.not_lt_zero _)
  assignment _ _ _ _ hlen := absurd hlen (Nat.not_lt_zero _)
  compound _ _ _ _ hlen := absurd hlen (Nat.not_lt_zero _)
  unary _ _ _ _ hlen := absurd hlen (Nat.not_lt_zero _)
  statement _ _ _ _ hlen := absurd hlen (Nat.not_lt_zero _)
  declaration _ _ _ _ hlen := absurd hlen (Nat.not_lt_zero _)

/-- The rules of any two levels agree on as many tokens as both suffice for. -/
theorem Comparison.rulesAgree_level (c : Comparison) {n m k : Nat} (hm : n ≤ m) (hk : n ≤ k) :
    c.RulesAgree n (Rules.level m) (Rules.level k) := by
  induction n generalizing m k with
  | zero => exact rulesAgree_zero _ _ _
  | succ n ih =>
    cases m with
    | zero => omega
    | succ m =>
      cases k with
      | zero => omega
      | succ k => exact (ih (Nat.le_of_succ_le_succ hm) (Nat.le_of_succ_le_succ hk)).next

end Scripting
