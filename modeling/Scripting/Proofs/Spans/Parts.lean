import Scripting.Proofs.Grammar.First
import Scripting.Proofs.Spans.Nodes

/-!
# Trees and the tokens of their nodes

* `Covers ts span` : the span runs from the first of the tokens to the last (`Expression.covers`,
  `Declaration.covers` and the like);
* `Written ss whole n` : tokens of the list `whole` write the node by themselves, and as deep as it
  would lie if it stood alone, unless it is bare;
* `Expression.parts`, `Declaration.parts` : so do the nodes right inside, those made for a loop or
  an assignment apart;
* `Declarations.rooted` : each node of a program is written, or made for the one around it.
-/

namespace Scripting

set_option autoImplicit false

theorem Joint.span_join (joint : Joint) (mark : Token) (l r : Expr) :
    (joint.join mark l r).span = l.span.through r.span := by
  cases joint <;> rfl

theorem Stmt.span_forLoop (span : Span) (keyword : Token) (initial : Option Stmt)
    (condition step : Option Expr) (body : Stmt) :
    (forLoop span keyword initial condition step body).span = span := by
  cases initial <;> rfl

namespace Grammar

/-! ## Spans -/

/-- The span runs from where the first token starts to where the last one stops. -/
def Covers (ts : List Token) (span : Span) : Prop :=
  ∃ first last, ts.head? = some first ∧ ts.getLast? = some last ∧
    span = first.span.through last.span

theorem covers_token (t : Token) : Covers [t] t.span := ⟨t, t, rfl, rfl, rfl⟩

theorem covers_cons (t : Token) {ts : List Token} {last : Token} (h : ts.getLast? = some last) :
    Covers (t :: ts) (t.span.through last.span) :=
  ⟨t, last, rfl, by rw [List.getLast?_cons, h]; rfl, rfl⟩

/-- Between the first construct and the last there may be anything. -/
theorem Covers.append {ts us : List Token} {a b : Span} (h : Covers ts a) (h' : Covers us b)
    (vs : List Token) : Covers (ts ++ (vs ++ us)) (a.through b) := by
  obtain ⟨first, _, hfirst, -, rfl⟩ := h
  obtain ⟨_, last, -, hlast, rfl⟩ := h'
  refine ⟨first, last, ?_, ?_, rfl⟩
  · rw [List.head?_append, hfirst]
    rfl
  · rw [← List.append_assoc, List.getLast?_append, hlast]
    rfl

/-- A construct at the end, behind a token. -/
theorem Covers.behind {t u : Token} {ts us : List Token} {a : Span} (h : Covers us a)
    (hfirst : ts.head? = some t) : Covers (ts ++ u :: us) (t.span.through a) := by
  obtain ⟨_, last, -, hlast, rfl⟩ := h
  refine ⟨t, last, ?_, ?_, rfl⟩
  · rw [List.head?_append, hfirst]
    rfl
  · rw [List.getLast?_append, List.getLast?_cons, hlast]
    rfl

section

variable {d : Nat} {ts : List Token} {e : Expr}

theorem Primary.covers (h : Primary d ts e) : Covers ts e.span := by
  cases h with
  | literal | name => exact covers_token _
  | group => exact covers_cons _ List.getLast?_concat

end

mutual

theorem Call.covers {d : Nat} {ts : List Token} {e : Expr} : Call d ts e → Covers ts e.span
  | .primary whole => whole.covers
  | .call left _ _ _ => by
    rw [List.append_assoc]
    exact left.covers.append (covers_token _) _

theorem Unary.covers {d : Nat} {ts : List Token} {e : Expr} : Unary d ts e → Covers ts e.span
  | .operator _ _ operand => (covers_token _).append operand.covers []
  | .call whole => whole.covers

theorem Joined.covers {levels : List (Kind → Option Joint)} {d : Nat} {ts : List Token}
    {e : Expr} : Joined levels d ts e → Covers ts e.span
  | .unary whole => whole.covers
  | .tighter whole => whole.covers
  | .join left _ right => by
    rw [Joint.span_join]
    exact left.covers.append right.covers [_]

theorem Compound.covers {d : Nat} {ts : List Token} {e : Expr} :
    Compound d ts e → Covers ts e.span
  | .joined whole => whole.covers
  | .combine _ _ _ right => (covers_token _).append right.covers [_]

theorem Operand.covers {d : Nat} {ts : List Token} {e : Expr} :
    Operand d ts e → Covers ts e.span
  | .function _ part => covers_cons _ part.getLast?
  | .compound whole => whole.covers

theorem Assignment.covers {d : Nat} {ts : List Token} {e : Expr} :
    Assignment d ts e → Covers ts e.span
  | .operand whole => whole.covers
  | .assign _ _ _ right => (covers_token _).append right.covers [_]

theorem Expression.covers {d : Nat} {ts : List Token} {e : Expr} :
    Expression d ts e → Covers ts e.span
  | .nest _ inside => inside.covers

end

section

variable {d : Nat} {ts : List Token} {s : Stmt}

theorem LetRest.covers {keyword : Token} (h : LetRest d keyword ts s) :
    Covers (keyword :: ts) s.span := by
  cases h with
  | bare => exact covers_cons _ rfl
  | initial => exact covers_cons _ List.getLast?_concat

theorem ExpressionStatement.covers (h : ExpressionStatement d ts s) : Covers ts s.span := by
  obtain ⟨value, -⟩ := h
  exact value.covers.append (covers_token _) []

mutual

theorem Statement.covers {dangling : Bool} {d : Nat} {ts : List Token} {s : Stmt} :
    Statement dangling d ts s → Covers ts s.span
  | .nest _ inside => inside.covers

theorem StatementForm.covers {dangling : Bool} {d : Nat} {ts : List Token} {s : Stmt} :
    StatementForm dangling d ts s → Covers ts s.span
  | .forLoop _ _ _ _ _ _ _ inside => by
    rw [Stmt.span_forLoop]
    exact inside.covers.behind rfl
  | .branch _ _ _ _ first => first.covers.behind rfl
  | .branchElse _ _ _ _ _ _ second => second.covers.behind rfl
  | .leave _ _ _ => covers_cons _ List.getLast?_concat
  | .loop _ _ _ _ inside => inside.covers.behind rfl
  | .breakLoop _ _ => covers_cons _ rfl
  | .continueLoop _ _ => covers_cons _ rfl
  | .block _ rest => covers_cons _ rest.getLast?
  | .expression whole => whole.covers

end

theorem Declaration.covers (h : Declaration d ts s) : Covers ts s.span := by
  cases h with
  | function _ _ part => exact covers_cons _ (by rw [List.getLast?_cons, part.getLast?]; rfl)
  | define _ rest => exact rest.covers
  | statement whole => exact whole.covers

end

/-! ## Constructs inside of others -/

section

variable {d : Nat} {ts : List Token}

theorem Declarations.of_mem {d : Nat} {ts : List Token} {body : List Stmt} {s : Stmt}
    (h : Declarations d ts body) (hs : s ∈ body) : ∃ us, us <:+: ts ∧ Declaration d us s := by
  match h with
  | .nil => cases hs
  | .cons first others =>
    rcases List.mem_cons.1 hs with rfl | hs
    · exact ⟨_, List.infix_append_left, first⟩
    · obtain ⟨us, hus, hdeclaration⟩ := others.of_mem hs
      exact ⟨us, List.infix_append_of_infix_right hus, hdeclaration⟩

theorem BlockRest.of_mem {body : List Stmt} {closing : Token} {s : Stmt}
    (h : BlockRest d ts body closing) (hs : s ∈ body) :
    ∃ us, us <:+: ts ∧ Declaration d us s := by
  obtain ⟨inside, -⟩ := h
  obtain ⟨us, hus, hdeclaration⟩ := inside.of_mem hs
  exact ⟨us, List.infix_append_of_infix_left hus, hdeclaration⟩

theorem FunctionRest.of_mem {parameters : List Token} {body : List Stmt} {last : Token} {s : Stmt}
    (h : FunctionRest d ts parameters body last) (hs : s ∈ body) :
    ∃ us, us <:+: ts ∧ Declaration d us s := by
  obtain ⟨-, -, -, -, rest⟩ := h
  obtain ⟨us, hus, hdeclaration⟩ := rest.of_mem hs
  exact ⟨us, List.infix_append_of_infix_right (List.infix_cons (List.infix_cons hus)),
    hdeclaration⟩

theorem Values.of_mem {d : Nat} {ts : List Token} {es : List Expr} {e : Expr}
    (h : Values d ts es) (he : e ∈ es) : ∃ us, us <:+: ts ∧ Expression d us e := by
  match h with
  | .one value =>
    rw [List.mem_singleton.1 he]
    exact ⟨_, List.infix_refl _, value⟩
  | .more value _ rest =>
    rcases List.mem_cons.1 he with rfl | he
    · exact ⟨_, List.infix_append_left, value⟩
    · obtain ⟨us, hus, hexpression⟩ := rest.of_mem he
      exact ⟨us, List.infix_append_of_infix_right (List.infix_cons hus), hexpression⟩

theorem Arguments.of_mem {arguments : List Expr} {e : Expr} (h : Arguments d ts arguments)
    (he : e ∈ arguments) : ∃ us, us <:+: ts ∧ Expression d us e := by
  cases h with
  | none => cases he
  | some values _ => exact values.of_mem he

end

/-! ## Constructs by themselves -/

section

variable {d : Nat} {ts : List Token} {e : Expr}

/-- What has operators of some levels may have operators of looser ones. -/
theorem Joined.loosen {levels levels' : List (Kind → Option Joint)} (h : Joined levels d ts e)
    (hlevels : levels <:+ levels') : Joined levels' d ts e := by
  obtain ⟨looser, rfl⟩ := hlevels
  induction looser with
  | nil => exact h
  | cons op? looser ih => exact .tighter ih

theorem Compound.alone (h : Compound (d + 1) ts e) (room : d < maxNesting) : Expression d ts e :=
  .nest room (.operand (.compound h))

theorem Joined.alone {levels : List (Kind → Option Joint)} (h : Joined levels (d + 1) ts e)
    (hlevels : levels <:+ Joint.levels) (room : d < maxNesting) : Expression d ts e :=
  Compound.alone (.joined (h.loosen hlevels)) room

theorem Unary.alone (h : Unary (d + 1) ts e) (room : d < maxNesting) : Expression d ts e :=
  (Joined.unary h).alone List.nil_suffix room

theorem Call.alone (h : Call (d + 1) ts e) (room : d < maxNesting) : Expression d ts e :=
  (Unary.call h).alone room

end

/-! ## Nodes that are written -/

/-- Tokens of the list `whole` write the node. What is not nested in itself, as statements are, has
something open around it, or it is bare. -/
inductive Written (ss : List Stmt) (whole : List Token) : Node → Prop
  | expr {d : Nat} {ts : List Token} {e : Expr} (h : Expression d ts e) (hts : ts <:+: whole)
      (hdeep : 0 < d ∨ Bare ss (.expr e)) : Written ss whole (.expr e)
  | declared {d : Nat} {ts : List Token} {s : Stmt} (h : Declaration d ts s) (hts : ts <:+: whole)
      (hdeep : 0 < d ∨ Bare ss (.stmt s)) : Written ss whole (.stmt s)
  | stated {dangling : Bool} {d : Nat} {ts : List Token} {s : Stmt}
      (h : Statement dangling d ts s) (hts : ts <:+: whole) : Written ss whole (.stmt s)

variable {ss : List Stmt}

theorem Written.mono {ts whole : List Token} {n : Node} (h : Written ss ts n)
    (hts : ts <:+: whole) : Written ss whole n := by
  cases h with
  | expr h hus hdeep => exact .expr h (hus.trans hts) hdeep
  | declared h hus hdeep => exact .declared h (hus.trans hts) hdeep
  | stated h hus => exact .stated h (hus.trans hts)

/-- The nodes right inside of the node are written by tokens of the list, or made of such. -/
def PartsWritten (ss : List Stmt) (ts : List Token) (n : Node) : Prop :=
  ∀ m ∈ n.parts, Rooted (Written ss ts) (some n) m

theorem partsWritten_body {d : Nat} {ts : List Token} {body : List Stmt} {around : Option Node}
    (h : ∀ s ∈ body, ∃ us, us <:+: ts ∧ Declaration d us s)
    (hdeep : ∀ s ∈ body, 0 < d ∨ Bare ss (.stmt s)) :
    ∀ m ∈ body.map Node.stmt, Rooted (Written ss ts) around m := by
  intro m hm
  obtain ⟨s, hs, rfl⟩ := List.mem_map.1 hm
  obtain ⟨us, hus, hdeclaration⟩ := h s hs
  exact .holds (.declared hdeclaration hus (hdeep s hs))

/-! ### In expressions -/

theorem Joint.parts_join (joint : Joint) (mark : Token) (l r : Expr) :
    (Node.expr (joint.join mark l r)).parts = [.expr l, .expr r] := by
  cases joint <;> rfl

theorem bare_join {joint : Joint} {mark : Token} {l r : Expr}
    (h : Bare ss (.expr (joint.join mark l r))) : Bare ss (.expr l) ∧ Bare ss (.expr r) := by
  cases joint with
  | binary => exact ⟨.binary h (.inl rfl), .binary h (.inr rfl)⟩
  | logical => exact ⟨.logical h (.inl rfl), .logical h (.inr rfl)⟩

section

variable {d : Nat} {ts : List Token} {e : Expr} (room : d < maxNesting)
  (hdeep : 0 < d ∨ Bare ss (.expr e))

theorem Primary.parts (h : Primary (d + 1) ts e) : PartsWritten ss ts (.expr e) := by
  cases h with
  | literal => exact List.forall_mem_nil _
  | name => exact List.forall_mem_nil _
  | group _ inside _ =>
    exact List.forall_mem_singleton.2 (.holds (.expr inside
      (List.infix_append_of_infix_left (List.infix_cons (List.infix_refl _)))
      (.inl (Nat.succ_pos d))))

include room hdeep

theorem Call.parts (h : Call (d + 1) ts e) : PartsWritten ss ts (.expr e) := by
  cases h with
  | primary whole => exact whole.parts
  | call left _ right _ =>
    refine List.forall_mem_cons.2 ⟨?_, fun m hm => ?_⟩
    · exact .holds (.expr (left.alone room)
        (List.infix_append_of_infix_left List.infix_append_left) (hdeep.imp_right .callee))
    · obtain ⟨e, he, rfl⟩ := List.mem_map.1 hm
      obtain ⟨us, hus, hexpression⟩ := right.of_mem he
      exact .holds (.expr hexpression (List.infix_append_of_infix_left
        (List.infix_append_of_infix_right (List.infix_cons hus))) (.inl (Nat.succ_pos d)))

theorem Unary.parts (h : Unary (d + 1) ts e) : PartsWritten ss ts (.expr e) := by
  cases h with
  | operator _ room operand =>
    exact List.forall_mem_singleton.2 (.holds (.expr (operand.alone room)
      (List.infix_cons (List.infix_refl _)) (.inl (Nat.succ_pos d))))
  | call whole => exact whole.parts room hdeep

theorem Joined.parts {levels : List (Kind → Option Joint)} (h : Joined levels (d + 1) ts e)
    (hlevels : levels <:+ Joint.levels) : PartsWritten ss ts (.expr e) := by
  induction levels with
  | nil =>
    obtain ⟨whole⟩ := h
    exact whole.parts room hdeep
  | cons op? levels ih =>
    have htighter := (List.suffix_cons op? levels).trans hlevels
    cases h with
    | tighter whole => exact ih whole htighter
    | join left _ right =>
      rw [PartsWritten, Joint.parts_join]
      refine List.forall_mem_cons.2 ⟨?_, List.forall_mem_singleton.2 ?_⟩
      · exact .holds (.expr (left.alone hlevels room) List.infix_append_left
          (hdeep.imp_right fun h => (bare_join h).1))
      · exact .holds (.expr (right.alone htighter room)
          (List.infix_append_of_infix_right (List.infix_cons (List.infix_refl _)))
          (hdeep.imp_right fun h => (bare_join h).2))

theorem Compound.parts (h : Compound (d + 1) ts e) : PartsWritten ss ts (.expr e) := by
  cases h with
  | joined whole => exact whole.parts room hdeep (List.suffix_refl _)
  | @combine _ name mark _ us value hname _ room right =>
    have hread : Expression (d + 1) [name] (.read name) :=
      (Call.primary (.name hname)).alone room
    refine List.forall_mem_singleton.2 (.made .combined (List.forall_mem_cons.2 ⟨?_, ?_⟩))
    · exact .holds (.expr hread (List.prefix_append _ _).isInfix (.inl (Nat.succ_pos d)))
    · exact List.forall_mem_singleton.2 (.holds (.expr (right.alone room)
        (List.infix_cons (List.infix_cons (List.infix_refl _))) (.inl (Nat.succ_pos d))))

theorem Assignment.parts (h : Assignment (d + 1) ts e) : PartsWritten ss ts (.expr e) := by
  cases h with
  | operand whole =>
    cases whole with
    | function _ part =>
      refine partsWritten_body (fun s hs => ?_) fun _ _ => .inl (Nat.succ_pos d)
      obtain ⟨us, hus, hdeclaration⟩ := part.of_mem hs
      exact ⟨us, List.infix_cons hus, hdeclaration⟩
    | compound whole => exact whole.parts room hdeep
  | assign _ _ room right =>
    exact List.forall_mem_singleton.2 (.holds (.expr (.nest room right)
      (List.infix_cons (List.infix_cons (List.infix_refl _))) (.inl (Nat.succ_pos d))))

end

/-- The expressions in an expression are written by tokens of its own. -/
theorem Expression.parts {d : Nat} {ts : List Token} {e : Expr} (h : Expression d ts e)
    (hdeep : 0 < d ∨ Bare ss (.expr e)) : PartsWritten ss ts (.expr e) := by
  obtain ⟨room, inside⟩ := h
  exact inside.parts room hdeep

/-! ### In statements -/

section

variable {d : Nat} {ts : List Token}

/-- The first clause lies in the statement that the loop is. -/
theorem InitialClause.written {initial : Option Stmt} (h : InitialClause (d + 1) ts initial)
    (room : d < maxNesting) : ∀ s ∈ initial, Written ss ts (.stmt s) := by
  rintro s ⟨⟩
  cases h with
  | define hkeyword rest =>
    exact .declared (.define hkeyword rest) (List.infix_refl _) (.inl (Nat.succ_pos d))
  | expression whole =>
    exact .stated (.nest room (.expression whole)) (List.infix_refl _)

theorem Expression.written {e : Expr} (h : Expression (d + 1) ts e) : Written ss ts (.expr e) :=
  .expr h (List.infix_refl _) (.inl (Nat.succ_pos d))

theorem Clause.written {value : Option Expr} (h : Clause (d + 1) ts value) :
    ∀ e ∈ value, Written ss ts (.expr e) := by
  rintro e ⟨⟩
  obtain ⟨⟩ | ⟨value⟩ := h
  exact value.written

theorem Statement.written {dangling : Bool} {s : Stmt} (h : Statement dangling d ts s) :
    Written ss ts (.stmt s) :=
  .stated h (List.infix_refl _)

/-- The parts of a loop with three clauses are these and its body, and what was made of them. -/
theorem partsWritten_forLoop {initial : Option Stmt} {condition step : Option Expr} {body : Stmt}
    (keyword : Token) (last : Span) (hinitial : ∀ s ∈ initial, Written ss ts (.stmt s))
    (hcondition : ∀ e ∈ condition, Written ss ts (.expr e))
    (hstep : ∀ e ∈ step, Written ss ts (.expr e)) (hbody : Written ss ts (.stmt body)) :
    PartsWritten ss ts
      (.stmt (.forLoop (keyword.span.through last) keyword initial condition step body)) := by
  have hturning : PartsWritten ss ts
      (.stmt (.forLoop (keyword.span.through last) keyword none condition step body)) := by
    refine List.forall_mem_cons.2 ⟨?_, List.forall_mem_singleton.2 ?_⟩
    · cases condition with
      | none => exact .made .always (List.forall_mem_nil _)
      | some condition => exact .holds (hcondition condition rfl)
    · cases step with
      | none => exact .holds hbody
      | some step =>
        refine .made .turn (List.forall_mem_cons.2 ⟨.holds hbody, List.forall_mem_singleton.2 ?_⟩)
        exact .made .step (List.forall_mem_singleton.2 (.holds (hstep step rfl)))
  cases initial with
  | none => exact hturning
  | some initial =>
    refine List.forall_mem_cons.2 ⟨.holds (hinitial initial rfl), List.forall_mem_singleton.2 ?_⟩
    exact .made .turning hturning

theorem StatementForm.parts {dangling : Bool} {s : Stmt} (room : d < maxNesting)
    (h : StatementForm dangling (d + 1) ts s) : PartsWritten ss ts (.stmt s) := by
  have hleft {ts us vs : List Token} (h : ts <:+: us) : ts <:+: us ++ vs :=
    List.infix_append_of_infix_left h
  have hbehind {ts us : List Token} {t : Token} : us <:+: ts ++ t :: us :=
    List.infix_append_of_infix_right (List.infix_cons (List.infix_refl _))
  have hfirst {ts us : List Token} {t u : Token} : ts <:+: t :: u :: ts ++ us :=
    hleft (List.infix_cons (List.infix_cons (List.infix_refl _)))
  cases h with
  | forLoop _ _ first second _ third _ inside =>
    exact partsWritten_forLoop _ _
      (fun s hs => (first.written room s hs).mono (hleft (hleft hfirst)))
      (fun e he => (second.written e he).mono
        (hleft (hleft (List.infix_append_of_infix_right (List.infix_refl _)))))
      (fun e he => (third.written e he).mono (hleft hbehind)) (inside.written.mono hbehind)
  | branch _ _ test _ first =>
    exact List.forall_mem_cons.2 ⟨.holds (test.written.mono hfirst),
      List.forall_mem_singleton.2 (.holds (first.written.mono hbehind))⟩
  | branchElse _ _ test _ first _ second =>
    exact List.forall_mem_cons.2 ⟨.holds (test.written.mono (hleft hfirst)),
      List.forall_mem_cons.2 ⟨.holds (first.written.mono (hleft hbehind)),
        List.forall_mem_singleton.2 (.holds (second.written.mono hbehind))⟩⟩
  | leave _ result _ =>
    rintro m hm
    obtain ⟨e, he, rfl⟩ := List.mem_map.1 hm
    exact .holds ((result.written e (Option.mem_toList.1 he)).mono
      (hleft (List.infix_cons (List.infix_refl _))))
  | loop _ _ test _ inside =>
    exact List.forall_mem_cons.2 ⟨.holds (test.written.mono hfirst),
      List.forall_mem_singleton.2 (.holds (inside.written.mono hbehind))⟩
  | breakLoop => exact List.forall_mem_nil _
  | continueLoop => exact List.forall_mem_nil _
  | block _ rest =>
    refine partsWritten_body (fun s hs => ?_) fun _ _ => .inl (Nat.succ_pos d)
    obtain ⟨us, hus, hdeclaration⟩ := rest.of_mem hs
    exact ⟨us, List.infix_cons hus, hdeclaration⟩
  | expression whole =>
    obtain ⟨value, -⟩ := whole
    exact List.forall_mem_singleton.2 (.holds (value.written.mono List.infix_append_left))

theorem Statement.parts {dangling : Bool} {s : Stmt} (h : Statement dangling d ts s) :
    PartsWritten ss ts (.stmt s) := by
  obtain ⟨room, inside⟩ := h
  exact inside.parts room

theorem Declaration.parts {s : Stmt} (h : Declaration d ts s)
    (hdeep : 0 < d ∨ Bare ss (.stmt s)) : PartsWritten ss ts (.stmt s) := by
  cases h with
  | function _ _ part =>
    refine partsWritten_body (fun s hs => ?_) fun s hs => hdeep.imp_right fun h => .body h hs
    obtain ⟨us, hus, hdeclaration⟩ := part.of_mem hs
    exact ⟨us, List.infix_cons (List.infix_cons hus), hdeclaration⟩
  | define _ rest =>
    cases rest with
    | bare => exact List.forall_mem_nil _
    | initial _ _ value _ =>
      exact List.forall_mem_singleton.2 (.holds (.expr value
        (List.infix_cons (List.infix_append_of_infix_left
          (List.infix_cons (List.infix_cons (List.infix_refl _)))))
        (hdeep.imp_right .initial)))
  | statement whole => exact whole.parts

end

/-! ### In programs -/

theorem Written.parts {whole : List Token} {n : Node} (h : Written ss whole n) :
    PartsWritten ss whole n := by
  have hmono {ts : List Token} (hts : ts <:+: whole) (hparts : PartsWritten ss ts n) :
      PartsWritten ss whole n := fun m hm => (hparts m hm).imp fun _ h => h.mono hts
  cases h with
  | expr h hts hdeep => exact hmono hts (h.parts hdeep)
  | declared h hts hdeep => exact hmono hts (h.parts hdeep)
  | stated h hts => exact hmono hts h.parts

/-- A node of a program is written by tokens of the program, or made for the node around it. -/
theorem Declarations.rooted {whole : List Token} (h : Declarations 0 whole ss)
    {around : Option Node} {n : Node} (hn : Occurs ss around n) :
    Rooted (Written ss whole) around n := by
  refine hn.rooted (fun s hs => ?_) fun n hn => hn.parts
  obtain ⟨us, hus, hdeclaration⟩ := h.of_mem hs
  exact .declared hdeclaration hus (.inr (.top hs))

end Grammar

end Scripting
