import Scripting.Proofs.Confinement.Comparison

/-!
# Reading up to a semicolon

* `Line us t` : tokens among which there is no semicolon, no brace, no `for` and no `else`, and a
  semicolon behind them;
* `Parser.Keeps ends next p` : of such a line, the next token with `next`, the parser `p` reads the
  same whatever stands behind it, and leaves the semicolon or, if it `ends` lines, nothing
  (`Keeps.bind`, and one lemma for each parser);
* `Rules.KeepsLines` : rules that keep to a line, as those of all levels do (`keepsLines_level`);
* `resume_line` : and so does the recovery.

A construct that reaches beyond a semicolon has a brace or a `for` in it, or goes on with `else`.
-/

namespace Scripting

set_option autoImplicit false

open Scripting.Parser

/-! ## Lines -/

/-- The kinds of tokens that a line has before its semicolon. -/
def Kind.isInLine : Kind → Bool
  | semicolon | leftBrace | rightBrace | forWord | elseWord | endOfInput => false
  | _ => true

/-- The same reading with more tokens left. -/
def Reading.before {α : Type} (r : Reading α) (behind : List Token) : Reading α :=
  { r with rest := r.rest ++ behind }

/-- Tokens without a semicolon, a brace, `for` and `else`, and the semicolon behind them. -/
structure Line (us : List Token) (t : Token) : Prop where
  inLine : ∀ u ∈ us, u.kind.isInLine = true
  semicolon : t.kind = .semicolon

/-- The tokens go on with no `else`. -/
def NoElse (ts : List Token) : Prop := ∀ t ∈ ts.head?, t.kind ≠ .elseWord

namespace Line

variable {us vs : List Token} {t : Token} (h : Line us t)

include h

theorem suffix (hvs : vs <:+ us) : Line vs t :=
  ⟨fun u hu => h.inLine u (hvs.subset hu), h.semicolon⟩

/-- The next token of a line is of one of its kinds. -/
theorem next : (us.headD t).kind.isInLine = true ∨ (us.headD t).kind = .semicolon := by
  cases us with
  | nil => exact .inr h.semicolon
  | cons u us => exact .inl (h.inLine u List.mem_cons_self)

theorem noElse (behind : List Token) : NoElse (us ++ t :: behind) := by
  intro u hu
  have hnext := h.next
  cases us with
  | nil =>
    obtain rfl := Option.some.inj hu
    rw [h.semicolon]
    decide
  | cons =>
    obtain rfl := Option.some.inj hu
    rintro hkind
    simp [hkind, Kind.isInLine] at hnext

end Line

namespace Parser

variable {α β ω : Type} {P : Token → Prop} {ends : Prop}

/-- Of a line whose next token has `next`, the same is read whatever stands behind the line, and the
semicolon is left, or the whole line is read if the parser `ends` lines. -/
def Keeps (ends : Prop) (next : Token → Prop) (p : Parser α) : Prop :=
  ∀ (s s' : Surroundings) (us : List Token) (t : Token) (behind : List Token),
    s.depth = s'.depth → Line us t → next (us.headD t) → NoElse behind →
      p s' (us ++ t :: behind) = (p s (us ++ [t])).before behind ∧
        ((∃ vs, vs <:+ us ∧ (p s (us ++ [t])).rest = vs ++ [t]) ∨
          ends ∧ (p s (us ++ [t])).rest = [] ∧ ∃ a, (p s (us ++ [t])).result = .ok a)

/-- Lines are kept whatever the next token is. -/
abbrev KeepsAll (ends : Prop) (p : Parser α) : Prop := p.Keeps ends fun _ => True

/-! ## Sequences -/

theorem KeepsAll.next {p : Parser α} (h : p.KeepsAll ends) : p.Keeps ends P :=
  fun s s' us t behind hs hline _ => h s s' us t behind hs hline trivial

theorem keeps_pure (a : α) : (pure a : Parser α).Keeps ends P :=
  fun _ _ us t behind _ _ _ _ =>
    ⟨by simp [Reading.before, pure], .inl ⟨us, List.suffix_refl us, rfl⟩⟩

theorem Keeps.bind {p : Parser α} {f : α → Parser β} (h : p.Keeps False P)
    (hf : ∀ a, (f a).KeepsAll ends) : (p >>= f).Keeps ends P := by
  intro s s' us t behind hs hline hnext helse
  obtain ⟨heq, ⟨vs, hvs, hrest⟩ | ⟨hends, -⟩⟩ := h s s' us t behind hs hline hnext helse
  · rw [run_bind, run_bind, heq]
    rcases hp : p s (us ++ [t]) with ⟨d | a, rest, reports⟩
    · rw [hp] at hrest
      exact ⟨rfl, .inl ⟨vs, hvs, hrest⟩⟩
    · rw [hp] at hrest
      subst hrest
      obtain ⟨heq', hrest'⟩ := hf a s s' vs t behind hs (hline.suffix hvs) trivial helse
      simp only [Reading.before, List.append_assoc, List.singleton_append]
      rw [heq']
      refine ⟨rfl, hrest'.imp_left ?_⟩
      rintro ⟨ws, hws, hleft⟩
      exact ⟨ws, hws.trans hvs, hleft⟩
  · exact hends.elim

/-- The parser reads nothing where no `else` is next, and gives the same everywhere. -/
def Idle (p : Parser α) : Prop := ∃ a, ∀ s ts, NoElse ts → p s ts = ⟨.ok a, ts, []⟩

theorem accept_of_noElse {s : Surroundings} {ts : List Token} (h : NoElse ts) :
    accept .elseWord s ts = ⟨.ok none, ts, []⟩ := by
  cases ts with
  | nil => rfl
  | cons t ts => exact if_neg (h t rfl)

/-- Behind a line that has ended, nothing more is read. -/
theorem Keeps.bind_idle {p : Parser α} {f : α → Parser β} (h : p.Keeps ends P)
    (hf : ∀ a, (f a).Idle) : (p >>= f).Keeps ends P := by
  intro s s' us t behind hs hline hnext helse
  obtain ⟨heq, hrest⟩ := h s s' us t behind hs hline hnext helse
  rw [run_bind, run_bind, heq]
  rcases hp : p s (us ++ [t]) with ⟨d | a, rest, reports⟩
  · simp only [hp, reduceCtorEq, exists_false, and_false, or_false] at hrest
    exact ⟨rfl, .inl hrest⟩
  · rw [hp] at hrest
    obtain ⟨b, hb⟩ := hf a
    have hmore : NoElse (rest ++ behind) ∧ NoElse rest := by
      rcases hrest with ⟨vs, hvs, rfl⟩ | ⟨-, rfl, -⟩
      · rw [List.append_assoc]
        exact ⟨(hline.suffix hvs).noElse behind, (hline.suffix hvs).noElse []⟩
      · exact ⟨helse, fun t ht => by cases ht⟩
    simp only [Reading.before]
    rw [hb s' _ hmore.1, hb s _ hmore.2]
    refine ⟨rfl, hrest.imp_right ?_⟩
    rintro ⟨hends, hleft, -⟩
    exact ⟨hends, hleft, b, rfl⟩

/-! ## The next token -/

/-- On lines that do not begin so, there is nothing to keep. -/
theorem keeps_of_not {p : Parser α} (h : ∀ t, P t → t.kind.isInLine = false ∧ t.kind ≠ .semicolon) :
    p.Keeps ends P := by
  intro s s' us t behind _ hline hnext
  rcases hline.next with hkind | hkind
  · rw [(h _ hnext).1] at hkind
    cases hkind
  · exact absurd hkind (h _ hnext).2

/-- Behind a look at the next token, what is read begins with it. -/
theorem keeps_peek_bind {f : Token → Parser α} (h : ∀ t, P t → (f t).Keeps ends (· = t)) :
    (peek >>= f).Keeps ends P := by
  intro s s' us t behind hs hline hnext helse
  have hf := h _ hnext s s' us t behind hs hline rfl helse
  rw [run_bind, run_bind]
  cases us <;> simpa [peek] using hf

/-- Behind tokens of a line that have been taken, what is left is left of the whole line. -/
theorem KeepsAll.behind {p : Parser α} (h : p.KeepsAll ends) {s s' : Surroundings} {t : Token}
    {us ts behind : List Token} (hs : s.depth = s'.depth) (hsuffix : us <:+ ts)
    (hline : Line ts t) (helse : NoElse behind) :
    p s' (us ++ t :: behind) = (p s (us ++ [t])).before behind ∧
      ((∃ vs, vs <:+ ts ∧ (p s (us ++ [t])).rest = vs ++ [t]) ∨
        ends ∧ (p s (us ++ [t])).rest = [] ∧ ∃ a, (p s (us ++ [t])).result = .ok a) := by
  obtain ⟨heq, hrest⟩ := h s s' us t behind hs (hline.suffix hsuffix) trivial helse
  refine ⟨heq, hrest.imp_left ?_⟩
  rintro ⟨vs, hvs, hleft⟩
  exact ⟨vs, hvs.trans hsuffix, hleft⟩

/-- The next token can be dropped if it is not the semicolon. -/
theorem keeps_skip_bind {t : Token} (ht : t.kind ≠ .semicolon) {f : Unit → Parser α}
    (h : (f ()).KeepsAll ends) : (skip >>= f).Keeps ends (· = t) := by
  intro s s' us u behind hs hline hnext helse
  cases us with
  | nil =>
    obtain rfl : u = t := hnext
    exact absurd hline.semicolon ht
  | cons v us => exact h.behind hs (List.suffix_cons v us) hline helse

theorem keeps_accept?_bind {op? : Kind → Option ω} (hop : op? .semicolon = none)
    {f : Option (ω × Token) → Parser α} (hsome : ∀ x, (f (some x)).KeepsAll ends)
    (hnone : (f none).KeepsAll ends) : (accept? op? >>= f).Keeps ends P := by
  intro s s' us t behind hs hline _ helse
  rw [run_bind, run_bind]
  cases us with
  | nil =>
    simpa [accept?, hline.semicolon, hop] using hnone s s' [] t behind hs hline trivial helse
  | cons u us =>
    simp only [List.cons_append, accept?]
    cases op? u.kind with
    | none => exact hnone s s' (u :: us) t behind hs hline trivial helse
    | some op => exact (hsome (op, u)).behind hs (List.suffix_cons u us) hline helse

/-- Two ways on, the first of them behind a token that a line may have. -/
theorem keeps_accept_bind {kind : Kind} (hkind : kind ≠ .semicolon) {f : Option Token → Parser α}
    (hsome : kind.isInLine = true → ∀ t, (f (some t)).KeepsAll ends)
    (hnone : (f none).KeepsAll ends) : (accept kind >>= f).Keeps ends P := by
  intro s s' us t behind hs hline _ helse
  rw [run_bind, run_bind]
  cases us with
  | nil =>
    have hne : t.kind ≠ kind := by rw [hline.semicolon]; exact hkind.symm
    simpa [accept, hne] using hnone s s' [] t behind hs hline trivial helse
  | cons u us =>
    simp only [List.cons_append, accept]
    by_cases hu : u.kind = kind
    · simp only [if_pos hu]
      have htaken := hsome (hu ▸ hline.inLine u List.mem_cons_self) u
      exact htaken.behind hs (List.suffix_cons u us) hline helse
    · simp only [if_neg hu]
      exact hnone s s' (u :: us) t behind hs hline trivial helse

theorem keeps_failAt (fault : ParseFault) (t : Token) :
    (failAt fault t : Parser α).Keeps ends P :=
  fun _ _ us t behind _ _ _ _ =>
    ⟨by simp [Reading.before, failAt], .inl ⟨us, List.suffix_refl us, rfl⟩⟩

theorem keeps_reportAt (fault : ParseFault) (t : Token) : (reportAt fault t).Keeps ends P :=
  fun _ _ us t behind _ _ _ _ =>
    ⟨by simp [Reading.before, reportAt], .inl ⟨us, List.suffix_refl us, rfl⟩⟩

theorem keeps_fail (fault : ParseFault) : (fail fault : Parser α).Keeps ends P :=
  keeps_peek_bind fun t _ => keeps_failAt fault t

theorem keeps_consume {kind : Kind} (hkind : kind ≠ .semicolon) (fault : ParseFault) :
    (consume kind fault).Keeps ends P :=
  keeps_accept_bind hkind (fun _ t => keeps_pure t) (keeps_fail fault)

/-- A token that no line has is not found. -/
theorem keeps_consume_bind_of_not {kind : Kind} (hkind : kind ≠ .semicolon)
    (hline : kind.isInLine = false) (fault : ParseFault) (f : Token → Parser α) :
    (consume kind fault >>= f).Keeps ends P := by
  intro s s' us t behind hs hus _ _
  have hmiss (s : Surroundings) (behind : List Token) :
      (consume kind fault >>= f) s (us ++ t :: behind) =
        ⟨.error (.atToken (.parse fault) (us.headD t)), us ++ t :: behind, []⟩ := by
    cases us with
    | nil =>
      have hne : t.kind ≠ kind := by rw [hus.semicolon]; exact hkind.symm
      simp [consume, fail, failAt, run_bind, accept, peek, hne]
    | cons u us =>
      have hne : u.kind ≠ kind := by
        rintro rfl
        simp [hus.inLine u List.mem_cons_self] at hline
      simp [consume, fail, failAt, run_bind, accept, peek, hne]
  rw [hmiss, hmiss]
  exact ⟨by simp [Reading.before], .inl ⟨us, List.suffix_refl us, rfl⟩⟩

/-- The semicolon ends a line. -/
theorem keeps_consume_semicolon (fault : ParseFault) :
    (consume .semicolon fault).KeepsAll True := by
  intro s s' us t behind hs hus _ _
  cases us with
  | nil =>
    have htake (s : Surroundings) (behind : List Token) :
        consume .semicolon fault s (t :: behind) = ⟨.ok t, behind, []⟩ := by
      simp [consume, run_bind, accept, hus.semicolon, pure]
    rw [List.nil_append, List.nil_append, htake, htake]
    exact ⟨rfl, .inr ⟨trivial, rfl, t, rfl⟩⟩
  | cons u us =>
    have hne : u.kind ≠ .semicolon := by
      intro hkind
      have hu := hus.inLine u List.mem_cons_self
      simp [hkind, Kind.isInLine] at hu
    have hmiss (s : Surroundings) (vs : List Token) : consume .semicolon fault s (u :: vs) =
        ⟨.error (.atToken (.parse fault) u), u :: vs, []⟩ := by
      simp [consume, fail, failAt, run_bind, accept, peek, hne]
    rw [List.cons_append, List.cons_append, hmiss, hmiss]
    exact ⟨by simp [Reading.before], .inl ⟨u :: us, List.suffix_refl _, rfl⟩⟩

/-! ## Depth and repetition -/

theorem Keeps.nested {p : Parser α} (h : p.KeepsAll ends) : (nested p).Keeps ends P := by
  intro s s' us t behind hs hline hnext helse
  unfold Parser.nested
  rw [← hs]
  split
  · exact keeps_fail (P := fun _ => True) .tooMuchNesting s s' us t behind hs hline trivial helse
  · exact h _ _ us t behind rfl hline trivial helse

theorem keeps_chainFrom {op? : Kind → Option ω} (hop : op? .semicolon = none)
    {join : ω → Token → α → α → α} {p : Parser α} (h : p.KeepsAll False) (bound : Nat) (left : α) :
    (chainFrom op? join p bound left).KeepsAll False := by
  induction bound generalizing left with
  | zero => exact keeps_pure left
  | succ bound ih =>
    refine keeps_accept?_bind hop (fun x => ?_) (keeps_pure left)
    exact h.bind fun right => ih _

theorem keeps_chain {op? : Kind → Option ω} (hop : op? .semicolon = none)
    {join : ω → Token → α → α → α} {p : Parser α} (h : p.KeepsAll False) (bound : Nat) :
    (chain bound op? join p).KeepsAll False :=
  h.bind fun left => keeps_chainFrom hop h bound left

theorem keeps_itemsFrom {p : Parser α} (h : p.KeepsAll False) (tooMany : ParseFault)
    (bound count : Nat) : (itemsFrom p tooMany bound count).KeepsAll False := by
  induction bound generalizing count with
  | zero => exact keeps_pure []
  | succ bound ih =>
    have turn {f : α → Option Token → Parser (List α)}
        (hmore : ∀ first t, (f first (some t)).KeepsAll False)
        (hlast : ∀ first, (f first none).KeepsAll False) :
        (p >>= fun first => accept .comma >>= f first).KeepsAll False :=
      h.bind fun first => keeps_accept_bind (by decide) (fun _ => hmore first) (hlast first)
    have hmore (first : α) : (itemsFrom p tooMany bound (count + 1) >>= fun others =>
        (pure (first :: others) : Parser (List α))).KeepsAll False :=
      (ih (count + 1)).bind fun _ => keeps_pure _
    rw [itemsFrom]
    split
    · refine keeps_peek_bind fun t _ => (keeps_reportAt tooMany t).bind fun _ => ?_
      exact turn (fun first _ => hmore first) fun _ => keeps_pure _
    · exact turn (fun first _ => hmore first) fun _ => keeps_pure _

theorem keeps_items {p : Parser α} (h : p.KeepsAll False) (tooMany : ParseFault) (bound : Nat) :
    (items bound p tooMany).KeepsAll False := by
  refine keeps_peek_bind fun t _ => ?_
  split
  · exact keeps_pure []
  · exact (keeps_itemsFrom h tooMany bound 0).next

end Parser

/-! ## Productions -/

/-- Expressions leave the semicolon of a line, and statements may end it. -/
structure Rules.KeepsLines (r : Rules) : Prop where
  expression : r.expression.KeepsAll False
  assignment : r.assignment.KeepsAll False
  compound : r.compound.KeepsAll False
  unary : r.unary.KeepsAll False
  statement : r.statement.KeepsAll True

namespace Production

variable {P : Token → Prop} {r : Rules} (h : r.KeepsLines)

/-- In a line, a function has no body. -/
theorem keeps_functionRest {ends : Prop} (r : Rules) (beforeParameters beforeBody : ParseFault) :
    (functionRest r beforeParameters beforeBody).KeepsAll ends := by
  refine (keeps_consume (by decide) _).bind fun _ => ?_
  refine (keeps_items (keeps_consume (by decide) _) _ _).bind fun _ => ?_
  refine (keeps_consume (by decide) _).bind fun _ => ?_
  exact keeps_consume_bind_of_not (by decide) rfl _ _

/-- Two tokens that begin a function are not the last two of a line. -/
theorem keeps_functionStart?_bind {α : Type} {ends : Prop} {f : Option (Token × Token) → Parser α}
    (hsome : ∀ x, (f (some x)).KeepsAll ends) (hnone : (f none).KeepsAll ends) :
    (functionStart? >>= f).KeepsAll ends := by
  intro s s' us t behind hs hline hnext helse
  have hnever (s : Surroundings) (u v : Token) (vs : List Token)
      (huv : ¬ (u.kind = .fnWord ∧ v.kind = .identifier)) :
      functionStart? s (u :: v :: vs) = ⟨.ok none, u :: v :: vs, []⟩ := if_neg huv
  have hclosing := hline.semicolon
  rcases us with _ | ⟨u, _ | ⟨v, us⟩⟩
  · have hmiss : functionStart? s' (t :: behind) = ⟨.ok none, t :: behind, []⟩ := by
      cases behind with
      | nil => rfl
      | cons v behind => exact hnever s' t v behind (by simp [hclosing])
    simp only [List.nil_append]
    rw [run_bind, run_bind, hmiss]
    exact hnone s s' [] t behind hs hline trivial helse
  · simp only [List.cons_append, List.nil_append]
    rw [run_bind, run_bind, hnever s' u t behind (by simp [hclosing]),
      hnever s u t [] (by simp [hclosing])]
    exact hnone s s' [u] t behind hs hline trivial helse
  · simp only [List.cons_append]
    rw [run_bind, run_bind]
    by_cases huv : u.kind = .fnWord ∧ v.kind = .identifier
    · simp only [functionStart?, if_pos huv]
      have hsuffix : us <:+ u :: v :: us := (List.suffix_cons v us).trans (List.suffix_cons u _)
      exact (hsome (u, v)).behind hs hsuffix hline helse
    · rw [hnever s' u v _ huv, hnever s u v _ huv]
      exact hnone s s' (u :: v :: us) t behind hs hline trivial helse

include h

/-! ### Expressions -/

theorem keeps_primary : (primary r).KeepsAll False := by
  refine keeps_peek_bind fun t _ => ?_
  split
  · rename_i value hvalue
    refine keeps_skip_bind (fun hkind => ?_) (keeps_pure _)
    simp [Token.value?, hkind] at hvalue
  · split
    · rename_i hkind
      exact keeps_skip_bind (by simp [hkind]) (keeps_pure _)
    · rename_i hkind
      refine keeps_skip_bind (by simp [hkind]) (h.expression.bind fun _ => ?_)
      exact (keeps_consume (by decide) _).bind fun _ => keeps_pure _
    · exact keeps_failAt _ _

theorem keeps_callFrom (bound : Nat) (callee : Expr) :
    (callFrom r bound callee).KeepsAll False := by
  induction bound generalizing callee with
  | zero => exact keeps_pure callee
  | succ bound ih =>
    refine keeps_accept_bind (by decide) (fun _ _ => ?_) (keeps_pure callee)
    refine (keeps_items h.expression _ _).bind fun _ => ?_
    exact (keeps_consume (by decide) _).bind fun _ => ih _

theorem keeps_unary : (unary r).KeepsAll False := by
  refine keeps_accept?_bind rfl (fun _ => ?_) ?_
  · exact h.unary.nested.bind fun _ => keeps_pure _
  · exact (keeps_primary h).bind fun _ => keeps_callFrom h _ _

theorem keeps_joined : (joined r).KeepsAll False := by
  have hlevels : ∀ op? ∈ Joint.levels, op? .semicolon = none := by decide
  unfold joined
  dsimp only
  revert hlevels
  induction Joint.levels with
  | nil => exact fun _ => keeps_unary h
  | cons op? levels ih =>
    rw [List.forall_mem_cons]
    exact fun hlevels => keeps_chain hlevels.1 (ih hlevels.2) _

theorem keeps_compound : (compound r).KeepsAll False := by
  refine (keeps_joined h).bind fun target => keeps_accept?_bind rfl (fun x => ?_) (keeps_pure _)
  refine h.compound.nested.bind fun value => ?_
  cases target with
  | read name => exact keeps_pure _
  | _ => exact (keeps_reportAt _ _).bind fun _ => keeps_pure _

theorem keeps_operand : (operand r).KeepsAll False := by
  refine keeps_accept_bind (by decide) (fun _ keyword => ?_) (keeps_compound h)
  exact (keeps_functionRest r _ _).bind fun _ => keeps_pure _

theorem keeps_assignment : (assignment r).KeepsAll False := by
  refine (keeps_operand h).bind fun target =>
    keeps_accept_bind (by decide) (fun _ mark => ?_) (keeps_pure _)
  refine h.assignment.nested.bind fun value => ?_
  cases target with
  | read name => exact keeps_pure _
  | _ => exact (keeps_reportAt _ _).bind fun _ => keeps_pure _

theorem keeps_expression : (expression r).KeepsAll False := (keeps_assignment h).nested

/-! ### Statements -/

theorem keeps_expressionStatement : (expressionStatement r).KeepsAll True :=
  (keeps_expression h).bind fun _ =>
    (keeps_consume_semicolon _).bind_idle fun _ => ⟨_, fun _ _ _ => rfl⟩

theorem keeps_letRest (keyword : Token) : (letRest r keyword).KeepsAll True := by
  refine (keeps_consume (by decide) _).bind fun name => Keeps.bind ?_ fun _ =>
    (keeps_consume_semicolon _).bind_idle fun _ => ⟨_, fun _ _ _ => rfl⟩
  refine keeps_accept_bind (by decide) (fun _ _ => ?_) (keeps_pure _)
  exact h.expression.bind fun _ => keeps_pure _

theorem keeps_clause (ending : Kind) : (clause r ending).KeepsAll False := by
  refine keeps_peek_bind fun t _ => ?_
  split
  · exact keeps_pure _
  · exact h.expression.next.bind fun _ => keeps_pure _

theorem keeps_returnRest (keyword : Token) : (returnRest r keyword).KeepsAll True :=
  (keeps_clause h _).bind fun _ =>
    (keeps_consume_semicolon _).bind_idle fun _ => ⟨_, fun _ _ _ => rfl⟩

theorem keeps_ifRest (keyword : Token) : (ifRest r keyword).KeepsAll True := by
  refine (keeps_consume (by decide) _).bind fun _ => h.expression.bind fun condition => ?_
  refine (keeps_consume (by decide) _).bind fun _ => h.statement.bind_idle fun whenTrue => ?_
  refine ⟨.branch (keyword.span.through whenTrue.span) condition whenTrue none, fun s ts hts => ?_⟩
  rw [run_bind, accept_of_noElse hts]
  rfl

theorem keeps_whileRest (keyword : Token) : (whileRest r keyword).KeepsAll True := by
  refine (keeps_consume (by decide) _).bind fun _ => h.expression.bind fun _ => ?_
  refine (keeps_consume (by decide) _).bind fun _ => ?_
  exact h.statement.bind_idle fun _ => ⟨_, fun _ _ _ => rfl⟩

theorem keeps_statement : (statement r).KeepsAll True := by
  refine Keeps.nested (keeps_peek_bind fun t _ => ?_)
  split
  all_goals try rename_i hkind
  · exact keeps_of_not (by rintro _ rfl; simp [hkind, Kind.isInLine])
  · exact keeps_skip_bind (by simp [hkind]) (keeps_ifRest h t)
  · exact keeps_skip_bind (by simp [hkind]) (keeps_returnRest h t)
  · exact keeps_skip_bind (by simp [hkind]) (keeps_whileRest h t)
  · exact keeps_skip_bind (by simp [hkind])
      ((keeps_consume_semicolon _).bind_idle fun _ => ⟨_, fun _ _ _ => rfl⟩)
  · exact keeps_skip_bind (by simp [hkind])
      ((keeps_consume_semicolon _).bind_idle fun _ => ⟨_, fun _ _ _ => rfl⟩)
  · exact keeps_of_not (by rintro _ rfl; simp [hkind, Kind.isInLine])
  · exact (keeps_expressionStatement h).next

theorem keeps_declarationForm : (declarationForm r).KeepsAll True := by
  refine keeps_functionStart?_bind (fun x => ?_)
    (keeps_accept_bind (by decide) (fun _ keyword => keeps_letRest h keyword) (keeps_statement h))
  exact (keeps_functionRest r _ _).bind_idle fun _ => ⟨_, fun _ _ _ => rfl⟩

end Production

namespace Rules

theorem KeepsLines.next {r : Rules} (h : r.KeepsLines) : r.next.KeepsLines where
  expression := Production.keeps_expression h
  assignment := Production.keeps_assignment h
  compound := Production.keeps_compound h
  unary := Production.keeps_unary h
  statement := Production.keeps_statement h

/-- The rules of all levels keep to a line. -/
theorem keepsLines_level (n : Nat) : (level n).KeepsLines := by
  induction n with
  | zero =>
    exact ⟨keeps_fail _, keeps_fail _, keeps_fail _, keeps_fail _, keeps_fail _⟩
  | succ n ih => exact ih.next

end Rules

/-! ## Recovery -/

/-- Recovery stops behind the semicolon of a line, or before it. -/
theorem resumeAfter_line {us : List Token} {t : Token} (h : Line us t) (last : Token)
    (behind : List Token) :
    resumeAfter last (us ++ t :: behind) = resumeAfter last (us ++ [t]) ++ behind ∧
      (resumeAfter last (us ++ [t]) = [] ∨
        ∃ vs, vs <:+ us ∧ resumeAfter last (us ++ [t]) = vs ++ [t]) := by
  induction us generalizing last with
  | nil =>
    have hstart : t.kind.startsStatement = false := by rw [h.semicolon]; rfl
    simp only [List.nil_append, resumeAfter, hstart]
    by_cases hlast : last.kind = .semicolon
    · simp [hlast]
    · cases behind with
      | nil => simp [hlast, resumeAfter]
      | cons u behind => simp [hlast, resumeAfter, h.semicolon]
  | cons u us ih =>
    simp only [List.cons_append, resumeAfter]
    split
    · exact ⟨by simp, .inr ⟨u :: us, List.suffix_refl _, rfl⟩⟩
    · obtain ⟨heq, hrest⟩ := ih (h.suffix (List.suffix_cons u us)) u
      refine ⟨heq, hrest.imp_right ?_⟩
      rintro ⟨vs, hvs, hleft⟩
      exact ⟨vs, hvs.trans (List.suffix_cons u us), hleft⟩

theorem resume_line {us : List Token} {t : Token} (h : Line us t) (behind : List Token) :
    resume (us ++ t :: behind) = resume (us ++ [t]) ++ behind ∧
      (resume (us ++ [t]) = [] ∨ ∃ vs, vs <:+ us ∧ resume (us ++ [t]) = vs ++ [t]) := by
  cases us with
  | nil =>
    refine ⟨?_, .inl rfl⟩
    cases behind with
    | nil => rfl
    | cons u behind => exact if_pos (.inl h.semicolon)
  | cons u us =>
    obtain ⟨heq, hrest⟩ := resumeAfter_line (h.suffix (List.suffix_cons u us)) u behind
    refine ⟨heq, hrest.imp_right ?_⟩
    rintro ⟨vs, hvs, hleft⟩
    exact ⟨vs, hvs.trans (List.suffix_cons u us), hleft⟩

/-- A declaration of a line is the same whatever stands behind the line, and what is left is the
same end of the line. -/
theorem Rules.declaration_line {us : List Token} {t : Token} (hline : Line us t) (n : Nat)
    {s s' : Surroundings} (hs : s.depth = s'.depth) {behind : List Token} (helse : NoElse behind) :
    (level n).declaration s' (us ++ t :: behind) =
        ((level n).declaration s (us ++ [t])).before behind ∧
      (((level n).declaration s (us ++ [t])).rest = [] ∨
        ∃ vs, vs <:+ us ∧ ((level n).declaration s (us ++ [t])).rest = vs ++ [t]) := by
  have hform : ∃ p : Parser Stmt, (level n).declaration = recovering p ∧ p.KeepsAll True := by
    cases n with
    | zero => exact ⟨_, rfl, keeps_fail _⟩
    | succ n => exact ⟨_, rfl, Production.keeps_declarationForm (keepsLines_level n)⟩
  obtain ⟨p, hp, hkeeps⟩ := hform
  obtain ⟨heq, hrest⟩ := hkeeps s s' us t behind hs hline trivial helse
  rw [hp]
  unfold recovering
  rw [heq]
  rcases hr : p s (us ++ [t]) with ⟨d | a, rest, reports⟩
  · simp only [hr, reduceCtorEq, exists_false, and_false, or_false] at hrest
    obtain ⟨vs, hvs, rfl⟩ := hrest
    obtain ⟨hresume, hleft⟩ := resume_line (hline.suffix hvs) behind
    refine ⟨?_, hleft.imp_right ?_⟩
    · simp [Reading.before, hresume]
    · rintro ⟨ws, hws, hleft⟩
      exact ⟨ws, hws.trans hvs, hleft⟩
  · rw [hr] at hrest
    refine ⟨rfl, hrest.symm.imp ?_ id⟩
    rintro ⟨-, hleft, -⟩
    exact hleft

end Scripting
