import Scripting.Proofs.Recovery.Blocks

/-!
# Bodies inside of what is read

* `Braced` : a brace with what stands behind it;
* `Reading.andThen`, `Reading.behind` : readings one behind the other, and behind other reports;
* `Parser.Tolerates R S f` : what `f` reads does not depend on which of the results that `R` relates
  stands before it, but for its own results, which `S` relates;
* `Braced.Carries` : the brace opens a body inside of what is read, and whatever this body is read
  as, what is read behind it is told by where it ends;
* `Braced.Opens` : a parser that starts before the brace stops before it, whatever stands behind it,
  or carries the body (`Opens.bind`, and one lemma for each parser; `Braced.rulesOpen_level`).

Trees are looked at in one place only: what is assigned to must be a name. So the statements of a
body decide nothing of how reading goes on behind it.
-/

namespace Scripting

set_option autoImplicit false

open Scripting.Parser

variable {α β γ ω : Type}

/-! ## Readings one behind the other -/

namespace Reading

/-- The reading, and what `f` reads behind it. -/
def andThen (r : Reading α) (f : α → Parser β) (s : Surroundings) : Reading β :=
  match r with
  | ⟨.ok a, rest, reports⟩ =>
    ⟨(f a s rest).result, (f a s rest).rest, reports ++ (f a s rest).reports⟩
  | ⟨.error d, rest, reports⟩ => ⟨.error d, rest, reports⟩

/-- The reading, with its fault reported. -/
def recovered : Reading α → Reading (Option α)
  | ⟨.ok a, rest, reports⟩ => ⟨.ok (some a), rest, reports⟩
  | ⟨.error d, rest, reports⟩ => ⟨.ok none, resume rest, reports ++ [d]⟩

/-- The reading, with other reports before its own. -/
def behind (reports : List Diagnostic) (r : Reading α) : Reading α :=
  { r with reports := reports ++ r.reports }

theorem andThen_behind (reports : List Diagnostic) (r : Reading α) (f : α → Parser β)
    (s : Surroundings) : (r.behind reports).andThen f s = (r.andThen f s).behind reports := by
  rcases r with ⟨_ | _, _, _⟩ <;> simp [behind, andThen]

theorem recovered_behind (reports : List Diagnostic) (r : Reading α) :
    (r.behind reports).recovered = r.recovered.behind reports := by
  rcases r with ⟨_ | _, _, _⟩ <;> simp [behind, recovered]

end Reading

namespace Parser

theorem bind_eq_andThen (p : Parser α) (f : α → Parser β) (s : Surroundings) (ts : List Token) :
    (p >>= f) s ts = (p s ts).andThen f s := rfl

theorem recovering_eq_recovered (p : Parser α) (s : Surroundings) (ts : List Token) :
    recovering p s ts = (p s ts).recovered := rfl

/-- What is reported is a fault, even if reading goes on. -/
theorem not_reads_reportAt_bind {fault : ParseFault} {t : Token} {f : Unit → Parser β}
    {s : Surroundings} {ts rest : List Token} {b : β} :
    ¬ (reportAt fault t >>= f).Reads s ts b rest := by
  intro h
  obtain ⟨u, us, hu, -⟩ := (reads_bind _ _ _).1 h
  exact not_reads_reportAt fault t u hu

theorem Reads.andThen {p : Parser α} {s : Surroundings} {ts rest : List Token} {a : α}
    (h : p.Reads s ts a rest) (f : α → Parser β) : (p >>= f) s ts = f a s rest := by
  rw [bind_eq_andThen, h]
  rfl

/-! ## Results that decide nothing -/

/-- Behind results that `R` relates, the same is read without a fault, but for the results, which
`S` relates. -/
def Tolerates (R : α → α → Prop) (S : β → β → Prop) (f : α → Parser β) : Prop :=
  ∀ a a' s ts b rest, R a a' → (f a).Reads s ts b rest → ∃ b', S b b' ∧ (f a').Reads s ts b' rest

/-- Any two are related. -/
abbrev Any (α : Type) : α → α → Prop := fun _ _ => True

variable {R : α → α → Prop} {S : β → β → Prop}

theorem tolerates_pure {f : α → β} (h : ∀ a a', R a a' → S (f a) (f a')) :
    Tolerates R S fun a => (pure (f a) : Parser β) := by
  intro a a' s ts b rest ha hr
  obtain ⟨rfl, rfl⟩ := (reads_pure _ _).1 hr
  exact ⟨f a', h a a' ha, (reads_pure _ _).2 ⟨rfl, rfl⟩⟩

/-- Something is read in between, without a look at the result. -/
theorem tolerates_bind {p : Parser γ} {f : α → γ → Parser β}
    (h : ∀ c, Tolerates R S fun a => f a c) : Tolerates R S fun a => p >>= f a := by
  intro a a' s ts b rest ha hr
  obtain ⟨c, us, hc, hb⟩ := (reads_bind _ _ _).1 hr
  obtain ⟨b', hS, hb'⟩ := h c a a' s us b rest ha hb
  exact ⟨b', hS, hc.bind hb'⟩

end Parser

/-- If the first is a name, the second is the same one. -/
def Expr.SameName (e e' : Expr) : Prop := ∀ name, e = .read name → e' = .read name

theorem Expr.SameName.refl (e : Expr) : e.SameName e := fun _ h => h

namespace Parser

theorem sameName_join {joint joint' : Joint} {mark mark' : Token} {l l' r r' : Expr} :
    Expr.SameName (joint.join mark l r) (joint'.join mark' l' r') :=
  fun _ h => absurd h (Grammar.Joint.join_ne_read _ _ _ _ _)

theorem tolerates_chainFrom (op? : Kind → Option Joint) (operand : Parser Expr) (bound : Nat) :
    Tolerates Expr.SameName Expr.SameName (chainFrom op? Joint.join operand bound) := by
  induction bound with
  | zero => exact tolerates_pure fun _ _ h => h
  | succ bound ih =>
    intro left left' s ts b rest hleft hr
    rcases (reads_chainFrom_succ _ _ _ _ _ _).1 hr with
      ⟨op, mark, us, right, vs, hop, rfl, hright, hmore⟩ | ⟨hnext, rfl, rfl⟩
    · obtain ⟨b', hb, hmore'⟩ := ih _ _ s vs b rest sameName_join hmore
      exact ⟨b', hb, (reads_chainFrom_succ _ _ _ _ _ _).2
        (.inl ⟨op, mark, us, right, vs, hop, rfl, hright, hmore'⟩)⟩
    · exact ⟨left', hleft, (reads_chainFrom_succ _ _ _ _ _ _).2 (.inr ⟨hnext, rfl, rfl⟩)⟩

theorem tolerates_callFrom (inner : Rules) (bound : Nat) :
    Tolerates Expr.SameName Expr.SameName (Production.callFrom inner bound) := by
  induction bound with
  | zero => exact tolerates_pure fun _ _ h => h
  | succ bound ih =>
    intro callee callee' s ts b rest hcallee hr
    rw [Production.callFrom] at hr ⊢
    obtain ⟨o, us, ho, hr⟩ := (reads_bind _ _ _).1 hr
    cases o with
    | none =>
      obtain ⟨rfl, rfl⟩ := (reads_pure _ _).1 hr
      exact ⟨callee', hcallee, ho.bind ((reads_pure _ _).2 ⟨rfl, rfl⟩)⟩
    | some opening =>
      obtain ⟨arguments, vs, harguments, hr⟩ := (reads_bind _ _ _).1 hr
      obtain ⟨closing, ws, hclosing, hr⟩ := (reads_bind _ _ _).1 hr
      have hname (arguments' : List Expr) : Expr.SameName (.call (callee.span.through closing.span)
          closing callee arguments) (.call (callee'.span.through closing.span) closing callee'
          arguments') := fun _ h => by cases h
      obtain ⟨b', hb, hr'⟩ := ih _ _ s ws b rest (hname arguments) hr
      exact ⟨b', hb, ho.bind (harguments.bind (hclosing.bind hr'))⟩

/-- A value that is read for a target is assigned to it, or it is no name and that is a fault. -/
theorem tolerates_target {p : Parser Expr} {f : Expr → Expr → Parser Expr}
    (hf : ∀ target value, (∃ name, target = .read name) ∨
      ∀ s ts e rest, ¬ (f target value).Reads s ts e rest) :
    Tolerates Expr.SameName Expr.SameName fun target => p >>= f target := by
  intro target target' s ts e rest hname hr
  obtain ⟨value, us, -, hvalue⟩ := (reads_bind _ _ _).1 hr
  rcases hf target value with ⟨name, rfl⟩ | hfault
  · rw [hname name rfl]
    exact ⟨e, .refl e, hr⟩
  · exact absurd hvalue (hfault s us e rest)

end Parser

/-! ## Bodies -/

/-- A brace that opens a body, with what stands behind it. No more than `room` other tokens may be
put there instead. -/
structure Braced where
  brace : Token
  inside : List Token
  room : Nat
  kind : brace.kind = .leftBrace
  short : inside.length ≤ room

namespace Braced

variable (T : Braced)

/-- Of the tokens behind the brace, `run` reads a body, and then what stands behind this, up to
`rest`. Whatever is read as this body, if other tokens stand there, is reported first; and if that
ends in the same place, what is left is the same, and so is the result, but for what `R` relates. -/
def Carries (R : α → α → Prop) (run : List Token → Reading α) (ending : Token) (a : α)
    (rest : List Token) : Prop :=
  ∃ (depth : Nat) (body : List Stmt) (after : List Token) (g : List Stmt → List Token → Reading α),
    ReadsBody true ⟨ending, depth⟩ T.inside body after [] ∧ nextKind? after = some .rightBrace ∧
      (∀ body', ∃ a', R a a' ∧ g body' after = ⟨.ok a', rest, []⟩) ∧
      ∀ ts body' after' reports, ts.length ≤ T.room →
        ReadsBody true ⟨ending, depth⟩ ts body' after' reports →
          run ts = (g body' after').behind reports

/-- The parser stops before the brace, whatever stands behind this, or it carries the body. -/
def Meets (R : α → α → Prop) (p : Parser α) (s : Surroundings) (us : List Token) (a : α)
    (rest : List Token) : Prop :=
  (∃ vs, vs <:+ us ∧ rest = vs ++ T.brace :: T.inside ∧
    ∀ ts, p.Reads s (us ++ T.brace :: ts) a (vs ++ T.brace :: ts)) ∨
    T.Carries R (fun ts => p s (us ++ T.brace :: ts)) s.ending a rest

/-- Wherever the parser starts before the brace and reads without a fault, it stops before the brace
or carries the body. The levels suffice for fewer than `n` tokens, and the next one has `next`. -/
def Opens (next : Token → Prop) (n : Nat) (R : α → α → Prop) (p : Parser α) : Prop :=
  ∀ s us a rest, s.ending.kind = .endOfInput → us.length + 1 + T.room < n →
    next (us.headD T.brace) → p.Reads s (us ++ T.brace :: T.inside) a rest → T.Meets R p s us a rest

/-- It does so whatever the next token is. -/
abbrev OpensAll (n : Nat) (R : α → α → Prop) (p : Parser α) : Prop :=
  T.Opens (fun _ => True) n R p

/-- The parser starts right behind the brace, and carries the body. -/
def Enters (n : Nat) (R : α → α → Prop) (p : Parser α) : Prop :=
  ∀ s a rest, s.ending.kind = .endOfInput → T.room < n → p.Reads s T.inside a rest →
    T.Carries R (p s) s.ending a rest

variable {T} {P : Token → Prop} {n m : Nat} {R : α → α → Prop} {S : β → β → Prop}

/-! ### Sequences -/

theorem Carries.congr {run run' : List Token → Reading α} {ending : Token} {a : α}
    {rest : List Token} (h : T.Carries R run ending a rest) (heq : ∀ ts, run' ts = run ts) :
    T.Carries R run' ending a rest := by
  rwa [funext heq]

theorem Carries.bind {run : List Token → Reading α} {f : α → Parser β} {s : Surroundings} {a : α}
    {b : β} {mid rest : List Token} (h : T.Carries R run s.ending a mid)
    (hf : (f a).Reads s mid b rest) (tolerates : Tolerates R S f) :
    T.Carries S (fun ts => (run ts).andThen f s) s.ending b rest := by
  obtain ⟨depth, body, after, g, inside, hafter, same, carried⟩ := h
  refine ⟨depth, body, after, fun body' after' => (g body' after').andThen f s, inside, hafter,
    fun body' => ?_, fun ts body' after' reports hlen hbody => ?_⟩
  · obtain ⟨a', ha, hg⟩ := same body'
    obtain ⟨b', hb, hr⟩ := tolerates a a' s mid b rest ha hf
    refine ⟨b', hb, ?_⟩
    dsimp only
    rw [hg]
    exact hr
  · dsimp only
    rw [carried ts body' after' reports hlen hbody, Reading.andThen_behind]

/-- Behind a first part that stops before the brace. -/
theorem Opens.step {p : Parser α} {f : α → Parser β} {s : Surroundings} {us vs : List Token} {a : α}
    (hvs : vs <:+ us) (hp : ∀ ts, p.Reads s (us ++ T.brace :: ts) a (vs ++ T.brace :: ts))
    (h : T.OpensAll m S (f a)) (hend : s.ending.kind = .endOfInput)
    (hlen : vs.length + 1 + T.room < m) {b : β} {rest : List Token}
    (hr : (p >>= f).Reads s (us ++ T.brace :: T.inside) b rest) :
    T.Meets S (p >>= f) s us b rest := by
  rw [Reads, (hp T.inside).andThen] at hr
  rcases h s vs b rest hend hlen trivial hr with ⟨ws, hws, rfl, same⟩ | carries
  · exact .inl ⟨ws, hws.trans hvs, rfl, fun ts => (hp ts).bind (same ts)⟩
  · exact .inr (carries.congr fun ts => (hp ts).andThen f)

theorem Opens.fewer {p : Parser α} (h : T.Opens P n R p) (hmn : m ≤ n) : T.Opens P m R p :=
  fun s us a rest hend hlen hnext hr => h s us a rest hend (by omega) hnext hr

theorem OpensAll.next {p : Parser α} (h : T.OpensAll n R p) : T.Opens P n R p :=
  fun s us a rest hend hlen _ hr => h s us a rest hend hlen trivial hr

theorem opens_pure (a : α) : T.Opens P n R (pure a) := by
  intro s us a' rest _ _ _ hr
  obtain ⟨rfl, rfl⟩ := (reads_pure _ _).1 hr
  exact .inl ⟨us, us.suffix_refl, rfl, fun ts => (reads_pure _ _).2 ⟨rfl, rfl⟩⟩

theorem Opens.bind {p : Parser α} {f : α → Parser β} (h : T.Opens P n R p)
    (hf : ∀ a, T.OpensAll n S (f a)) (tolerates : Tolerates R S f) :
    T.Opens P n S (p >>= f) := by
  intro s us b rest hend hlen hnext hr
  obtain ⟨a, mid, ha, hb⟩ := (reads_bind _ _ _).1 hr
  rcases h s us a mid hend hlen hnext ha with ⟨vs, hvs, rfl, same⟩ | carries
  · have hle := hvs.length_le
    exact (hf a).step hvs same hend (by omega) hr
  · exact .inr (carries.bind hb tolerates)

theorem Enters.fewer {p : Parser α} (h : T.Enters n R p) (hmn : m ≤ n) : T.Enters m R p :=
  fun s a rest hend hlen hr => h s a rest hend (by omega) hr

theorem Enters.bind {p : Parser α} {f : α → Parser β} (h : T.Enters n R p)
    (tolerates : Tolerates R S f) : T.Enters n S (p >>= f) := by
  intro s b rest hend hlen hr
  obtain ⟨a, mid, ha, hb⟩ := (reads_bind _ _ _).1 hr
  exact (h s a mid hend hlen ha).bind hb tolerates

theorem Opens.any {p : Parser α} (h : T.Opens P n R p) : T.Opens P n (Any α) p := by
  intro s us a rest hend hlen hnext hr
  rcases h s us a rest hend hlen hnext hr with stops | carries
  · exact .inl stops
  · obtain ⟨depth, body, after, g, inside, hafter, same, carried⟩ := carries
    refine .inr ⟨depth, body, after, g, inside, hafter, fun body' => ?_, carried⟩
    obtain ⟨a', -, hg⟩ := same body'
    exact ⟨a', trivial, hg⟩

/-- What is read behind the brace, if this is taken. -/
theorem Enters.step {p : Parser α} {f : α → Parser β} {s : Surroundings} {a : α}
    (hp : ∀ ts, p.Reads s (T.brace :: ts) a ts) (h : T.Enters m S (f a))
    (hend : s.ending.kind = .endOfInput) (hlen : T.room < m) {b : β} {rest : List Token}
    (hr : (p >>= f).Reads s (T.brace :: T.inside) b rest) : T.Meets S (p >>= f) s [] b rest := by
  rw [Reads, (hp T.inside).andThen] at hr
  exact .inr ((h s b rest hend hlen hr).congr fun ts => (hp ts).andThen f)

/-! ### The next token -/

theorem opens_peek_bind {f : Token → Parser β}
    (h : ∀ t, P t → T.Opens (· = t) n S (f t)) : T.Opens P n S (peek >>= f) := by
  intro s us b rest hend hlen hnext hr
  have hpeek (ts : List Token) : peek.Reads s (us ++ T.brace :: ts) (us.headD T.brace)
      (us ++ T.brace :: ts) := (reads_peek _).2 ⟨by cases us <;> rfl, rfl⟩
  have hall : T.Meets S (f (us.headD T.brace)) s us b rest := by
    rw [Reads, (hpeek T.inside).andThen] at hr
    exact h _ hnext s us b rest hend hlen rfl hr
  rcases hall with ⟨vs, hvs, rfl, same⟩ | carries
  · exact .inl ⟨vs, hvs, rfl, fun ts => (hpeek ts).bind (same ts)⟩
  · exact .inr (carries.congr fun ts => (hpeek ts).andThen f)

theorem opens_skip_bind {t : Token} (ht : t.kind ≠ .leftBrace) {f : Unit → Parser β}
    (h : T.OpensAll (n - 1) S (f ())) : T.Opens (· = t) n S (skip >>= f) := by
  intro s us b rest hend hlen hnext hr
  cases us with
  | nil => exact absurd (hnext ▸ T.kind) ht
  | cons u us =>
    rw [List.length_cons] at hlen
    exact h.step (List.suffix_cons u us) (fun _ => (reads_skip ()).2 rfl) hend (by omega) hr

/-- The brace itself may be dropped, if the body is read behind it. -/
theorem opens_skip_bind_brace {f : Unit → Parser β} (h : T.OpensAll (n - 1) S (f ()))
    (hin : T.Enters (n - 1) S (f ())) : T.Opens P n S (skip >>= f) := by
  intro s us b rest hend hlen _ hr
  cases us with
  | nil =>
    rw [List.length_nil] at hlen
    exact hin.step (fun _ => (reads_skip ()).2 rfl) hend (by omega) hr
  | cons u us =>
    rw [List.length_cons] at hlen
    exact h.step (List.suffix_cons u us) (fun _ => (reads_skip ()).2 rfl) hend (by omega) hr

theorem opens_accept?_bind {op? : Kind → Option ω} (hop : op? .leftBrace = none)
    {f : Option (ω × Token) → Parser β} (hsome : ∀ x, T.OpensAll (n - 1) S (f (some x)))
    (hnone : T.OpensAll n S (f none)) : T.Opens P n S (accept? op? >>= f) := by
  intro s us b rest hend hlen _ hr
  cases hu : op? (us.headD T.brace).kind with
  | none =>
    refine hnone.step us.suffix_refl (fun ts => ?_) hend hlen hr
    refine (reads_accept? _ _).2 (.inr ⟨rfl, rfl, ?_⟩)
    cases us <;> simpa using hu
  | some op =>
    cases us with
    | nil => simp [T.kind, hop] at hu
    | cons u us =>
      rw [List.length_cons] at hlen
      refine (hsome (op, u)).step (List.suffix_cons u us) (fun ts => ?_) hend (by omega) hr
      exact (reads_accept? _ _).2 (.inl ⟨op, u, rfl, hu, rfl⟩)

theorem opens_accept_bind {kind : Kind} (hkind : kind ≠ .leftBrace) {f : Option Token → Parser β}
    (hsome : ∀ t, T.OpensAll (n - 1) S (f (some t))) (hnone : T.OpensAll n S (f none)) :
    T.Opens P n S (accept kind >>= f) := by
  intro s us b rest hend hlen _ hr
  by_cases hu : (us.headD T.brace).kind = kind
  · cases us with
    | nil => exact absurd (hu.symm.trans T.kind) hkind
    | cons u us =>
      rw [List.length_cons] at hlen
      refine (hsome u).step (List.suffix_cons u us) (fun ts => ?_) hend (by omega) hr
      exact (reads_accept _ _).2 (.inl ⟨u, rfl, hu, rfl⟩)
  · refine hnone.step us.suffix_refl (fun ts => ?_) hend hlen hr
    refine (reads_accept _ _).2 (.inr ⟨rfl, rfl, ?_⟩)
    cases us <;> simpa using hu

/-- What always finds a fault. -/
theorem opens_of_not_reads {p : Parser α} (h : ∀ s us a rest, ¬ p.Reads s us a rest) :
    T.Opens P n R p :=
  fun s _ a rest _ _ _ hr => absurd hr (h s _ a rest)

theorem opens_failAt (fault : ParseFault) (t : Token) :
    T.Opens P n R (failAt fault t : Parser α) :=
  opens_of_not_reads fun _ _ a _ => not_reads_failAt fault t a

theorem opens_fail (fault : ParseFault) : T.Opens P n R (fail fault : Parser α) :=
  opens_of_not_reads fun _ _ a _ => not_reads_fail fault a

theorem opens_consume {R : Token → Token → Prop} {kind : Kind} (hkind : kind ≠ .leftBrace)
    (fault : ParseFault) : T.Opens P n R (consume kind fault) :=
  opens_accept_bind hkind (fun t => opens_pure t) (opens_fail fault)

theorem opens_consume_bind {kind : Kind} (hkind : kind ≠ .leftBrace) {fault : ParseFault}
    {f : Token → Parser β} (h : ∀ t, T.OpensAll (n - 1) S (f t)) :
    T.Opens P n S (consume kind fault >>= f) := by
  intro s us b rest hend hlen _ hr
  obtain ⟨t, mid, ht, -⟩ := (reads_bind _ _ _).1 hr
  obtain ⟨hk, hus⟩ := (reads_consume _ _ _).1 ht
  cases us with
  | nil =>
    obtain ⟨rfl, -⟩ := List.cons.inj hus
    exact absurd (hk.symm.trans T.kind) hkind
  | cons u us =>
    obtain ⟨rfl, -⟩ := List.cons.inj hus
    rw [List.length_cons] at hlen
    exact (h u).step (List.suffix_cons u us) (fun _ => (reads_consume _ _ _).2 ⟨hk, rfl⟩) hend
      (by omega) hr

/-- The brace itself may be taken, if the body is read behind it. -/
theorem opens_consume_bind_brace {fault : ParseFault} {f : Token → Parser β}
    (h : ∀ t, T.OpensAll (n - 1) S (f t)) (hin : T.Enters (n - 1) S (f T.brace)) :
    T.Opens P n S (consume .leftBrace fault >>= f) := by
  intro s us b rest hend hlen _ hr
  cases us with
  | nil =>
    rw [List.length_nil] at hlen
    exact hin.step (fun _ => (reads_consume _ _ _).2 ⟨T.kind, rfl⟩) hend (by omega) hr
  | cons u us =>
    obtain ⟨t, mid, ht, -⟩ := (reads_bind _ _ _).1 hr
    obtain ⟨hk, hus⟩ := (reads_consume _ _ _).1 ht
    obtain ⟨rfl, -⟩ := List.cons.inj hus
    rw [List.length_cons] at hlen
    exact (h u).step (List.suffix_cons u us) (fun _ => (reads_consume _ _ _).2 ⟨hk, rfl⟩) hend
      (by omega) hr

/-! ### Depth and recovery -/

theorem opens_nested {p : Parser α} (h : T.OpensAll n R p) : T.Opens P n R (nested p) := by
  intro s us a rest hend hlen _ hr
  obtain ⟨room, hr⟩ := (reads_nested _ _).1 hr
  rcases h { s with depth := s.depth + 1 } us a rest hend hlen trivial hr with
    ⟨vs, hvs, rfl, same⟩ | carries
  · exact .inl ⟨vs, hvs, rfl, fun ts => (reads_nested _ _).2 ⟨room, same ts⟩⟩
  · exact .inr (carries.congr fun ts => if_neg (Nat.not_le.2 room))

theorem opens_recovering {p : Parser α} (h : T.OpensAll n R p) :
    T.Opens P n (Any (Option α)) (recovering p) := by
  intro s us o rest hend hlen _ hr
  obtain ⟨a, rfl, ha⟩ := (reads_recovering _ _).1 hr
  rcases h s us a rest hend hlen trivial ha with ⟨vs, hvs, rfl, same⟩ | carries
  · exact .inl ⟨vs, hvs, rfl, fun ts => (reads_recovering _ _).2 ⟨a, rfl, same ts⟩⟩
  · obtain ⟨depth, body, after, g, inside, hafter, same, carried⟩ := carries
    refine .inr ⟨depth, body, after, fun body' after' => (g body' after').recovered, inside, hafter,
      fun body' => ?_, fun ts body' after' reports hts hbody => ?_⟩
    · obtain ⟨a', -, hg⟩ := same body'
      exact ⟨some a', trivial, congrArg Reading.recovered hg⟩
    · have hrun : p s (us ++ T.brace :: ts) = _ := carried ts body' after' reports hts hbody
      dsimp only
      rw [recovering_eq_recovered, hrun, Reading.recovered_behind]

/-! ### Repetition -/

theorem opens_chainFrom {op? : Kind → Option Joint} (hop : op? .leftBrace = none)
    {operand : Parser Expr} (h : T.OpensAll n Expr.SameName operand) (bound : Nat) (left : Expr) :
    T.OpensAll n Expr.SameName (chainFrom op? Joint.join operand bound left) := by
  induction bound generalizing n left with
  | zero => exact opens_pure left
  | succ bound ih =>
    have hfewer : T.OpensAll (n - 1) Expr.SameName operand := h.fewer (Nat.sub_le n 1)
    refine opens_accept?_bind hop (fun x => ?_) (opens_pure left)
    refine hfewer.bind (fun _ => ih hfewer _) fun _ _ s ts b rest _ hr => ?_
    exact tolerates_chainFrom op? operand bound _ _ s ts b rest sameName_join hr

theorem opens_chain {op? : Kind → Option Joint} (hop : op? .leftBrace = none)
    {operand : Parser Expr} (h : T.OpensAll n Expr.SameName operand) (bound : Nat) :
    T.OpensAll n Expr.SameName (chain bound op? Joint.join operand) :=
  h.bind (opens_chainFrom hop h bound) (tolerates_chainFrom op? operand bound)

theorem opens_itemsFrom {item : Parser α} (h : T.OpensAll n (Any α) item) (tooMany : ParseFault)
    (bound count : Nat) : T.OpensAll n (Any (List α)) (itemsFrom item tooMany bound count) := by
  induction bound generalizing n count with
  | zero => exact opens_pure _
  | succ bound ih =>
    have others := ih (h.fewer (Nat.sub_le n 1)) (count + 1)
    rw [itemsFrom]
    split
    · exact opens_peek_bind fun t _ => opens_of_not_reads fun _ _ _ _ => not_reads_reportAt_bind
    · refine h.bind (fun first => ?_) ?_
      · refine opens_accept_bind (by decide) (fun _ => ?_) (opens_pure _)
        exact others.bind (fun _ => opens_pure _) (tolerates_pure fun _ _ _ => trivial)
      · refine tolerates_bind fun o => ?_
        cases o with
        | none => exact tolerates_pure fun _ _ _ => trivial
        | some => exact tolerates_bind fun _ => tolerates_pure fun _ _ _ => trivial

theorem opens_items {item : Parser α} (h : T.OpensAll n (Any α) item) (tooMany : ParseFault)
    (bound : Nat) : T.OpensAll n (Any (List α)) (items bound item tooMany) := by
  refine opens_peek_bind fun t _ => ?_
  split
  · exact opens_pure _
  · exact (opens_itemsFrom h tooMany bound 0).next

theorem opens_declarations {declaration : Parser (Option α)}
    (h : T.OpensAll n (Any (Option α)) declaration) (inBlock : Bool) (bound : Nat) :
    T.OpensAll n (Any (List α)) (declarations declaration inBlock bound) := by
  induction bound with
  | zero => exact opens_pure _
  | succ bound ih =>
    refine opens_peek_bind fun t _ => ?_
    split
    · exact opens_pure _
    · refine h.next.bind (fun _ => ?_) ?_
      · exact ih.bind (fun _ => opens_pure _) (tolerates_pure fun _ _ _ => trivial)
      · exact tolerates_bind fun _ => tolerates_pure fun _ _ _ => trivial

end Braced

/-! ## Productions -/

/-- The rules of the level stop before the brace or carry the body. -/
structure Braced.RulesOpen (T : Braced) (n : Nat) : Prop where
  expression : T.OpensAll n Expr.SameName (Rules.level n).expression
  assignment : T.OpensAll n Expr.SameName (Rules.level n).assignment
  compound : T.OpensAll n Expr.SameName (Rules.level n).compound
  unary : T.OpensAll n Expr.SameName (Rules.level n).unary
  statement : T.OpensAll n (Any Stmt) (Rules.level n).statement
  declaration : T.OpensAll n (Any (Option Stmt)) (Rules.level n).declaration

namespace Production

open Braced

variable {T : Braced} {n : Nat} {P : Token → Prop}

/-- Declarations that are read without a fault are read as a body. -/
theorem readsBody_of_reads {inBlock : Bool} {s : Surroundings} {ts rest : List Token}
    {body : List Stmt} (hend : s.ending.kind = .endOfInput) (hn : ts.length < n)
    (hr : (declarations (Rules.level n).declaration inBlock (n + 1)).Reads s ts body rest) :
    ReadsBody inBlock s ts body rest [] := by
  obtain ⟨body', rest', reports', h⟩ := exists_readsBody hend inBlock ts
  have heq := (h n (n + 1) hn (Nat.lt_succ_of_lt hn)).symm.trans hr
  simp only [Reading.mk.injEq, Except.ok.injEq] at heq
  obtain ⟨rfl, rfl, rfl⟩ := heq
  exact h

/-- Right behind the brace, the body is read. -/
theorem enters_blockRest : T.Enters n (Any (List Stmt × Token)) (blockRest (.level n)) := by
  intro s a rest hend hlen hr
  have hshort := T.short
  obtain ⟨body, after, hbody, hclosing⟩ := (reads_bind _ _ _).1 hr
  rw [Rules.bound_level] at hbody
  obtain ⟨closing, mid, hafter, hlast⟩ := (reads_bind _ _ _).1 hclosing
  obtain ⟨hkind, rfl⟩ := (reads_consume _ _ _).1 hafter
  obtain ⟨rfl, rfl⟩ := (reads_pure _ _).1 hlast
  let close (body' : List Stmt) : Parser (List Stmt × Token) := do
    let closing ← consume .rightBrace .expectedBraceAfterBlock
    pure (body', closing)
  refine ⟨s.depth, body, closing :: mid, fun body' after' => close body' s after',
    readsBody_of_reads hend (by omega) hbody, congrArg some hkind, fun body' => ?_,
    fun ts body' after' reports hts hread => ?_⟩
  · exact ⟨(body', closing), trivial, hafter.andThen _⟩
  · unfold blockRest
    rw [bind_eq_andThen, Rules.bound_level, hread n (n + 1) (by omega) (by omega)]
    rfl

section

variable (h : T.RulesOpen n)

include h

theorem opens_blockRest : T.OpensAll n (Any (List Stmt × Token)) (blockRest (.level n)) := by
  refine (opens_declarations h.declaration true _).bind (fun _ => ?_) ?_
  · exact opens_consume_bind (by decide) fun _ => opens_pure _
  · exact tolerates_bind fun _ => tolerates_pure fun _ _ _ => trivial

theorem opens_functionRest (beforeParameters beforeBody : ParseFault) :
    T.OpensAll n (Any FunctionPart) (functionRest (.level n) beforeParameters beforeBody) := by
  have hname {m : Nat} : T.OpensAll m (Any Token) (consume .identifier .expectedParameterName) :=
    opens_consume (by decide) _
  refine opens_consume_bind (by decide) fun _ => ?_
  refine (opens_items hname _ _).bind (fun parameters => ?_) ?_
  · refine opens_consume_bind (by decide) fun _ => ?_
    refine opens_consume_bind_brace (fun _ => ?_) ?_
    · refine ((opens_blockRest h).fewer (by omega)).bind (fun _ => opens_pure _) ?_
      exact tolerates_pure fun _ _ _ => trivial
    · refine (enters_blockRest.fewer (by omega)).bind ?_
      exact tolerates_pure fun _ _ _ => trivial
  · refine tolerates_bind fun _ => tolerates_bind fun _ => tolerates_bind fun x => ?_
    exact tolerates_pure fun _ _ _ => trivial

/-! ### Expressions -/

theorem opens_primary : T.OpensAll (n + 1) Expr.SameName (primary (.level n)) := by
  refine opens_peek_bind fun t _ => ?_
  split
  · rename_i value hvalue
    refine opens_skip_bind (fun hkind => ?_) (opens_pure _)
    simp [Token.value?, hkind] at hvalue
  · split
    · rename_i hkind
      exact opens_skip_bind (by simp [hkind]) (opens_pure _)
    · rename_i hkind
      refine opens_skip_bind (by simp [hkind]) (h.expression.bind (fun _ => ?_) ?_)
      · exact opens_consume_bind (by decide) fun _ => opens_pure _
      · exact tolerates_bind fun _ => tolerates_pure fun _ _ _ _ h => by cases h
    · exact opens_failAt _ _

theorem opens_callFrom (bound : Nat) (callee : Expr) :
    T.OpensAll (n + 1) Expr.SameName (callFrom (.level n) bound callee) := by
  induction bound generalizing callee with
  | zero => exact opens_pure callee
  | succ bound ih =>
    refine opens_accept_bind (by decide) (fun _ => ?_) (opens_pure callee)
    refine (opens_items h.expression.any _ _).bind (fun _ => ?_) ?_
    · exact opens_consume_bind (by decide) fun _ => (ih _).fewer (by omega)
    · refine tolerates_bind fun closing => ?_
      exact fun _ _ s ts b rest _ hr => tolerates_callFrom _ bound _ _ s ts b rest
        (fun _ h => by cases h) hr

theorem opens_unary : T.OpensAll (n + 1) Expr.SameName (unary (.level n)) := by
  refine opens_accept?_bind (by decide) (fun _ => ?_) ?_
  · refine (opens_nested h.unary).bind (fun _ => opens_pure _) ?_
    exact tolerates_pure fun _ _ _ _ h => by cases h
  · exact (opens_primary h).bind (opens_callFrom h _) (tolerates_callFrom _ _)

theorem opens_joined : T.OpensAll (n + 1) Expr.SameName (joined (.level n)) := by
  have hlevels : ∀ op? ∈ Joint.levels, op? .leftBrace = none := by
    simp [Joint.levels, Joint.or?, Joint.and?, Joint.equality?, Joint.comparison?, Joint.term?,
      Joint.factor?]
  unfold joined
  dsimp only
  generalize Joint.levels = levels at hlevels ⊢
  induction levels with
  | nil => exact opens_unary h
  | cons op? levels ih =>
    exact opens_chain (hlevels _ List.mem_cons_self)
      (ih fun op? hop => hlevels op? (List.mem_cons_of_mem _ hop)) _

theorem opens_compound : T.OpensAll (n + 1) Expr.SameName (compound (.level n)) := by
  refine (opens_joined h).bind (fun target => ?_) (tolerates_bind fun x => ?_)
  · refine opens_accept?_bind (by decide) (fun x => ?_) (opens_pure _)
    refine (opens_nested h.compound).bind (fun value => ?_) ?_
    · cases target with
      | read name => exact opens_pure _
      | _ => exact opens_of_not_reads fun _ _ _ _ => not_reads_reportAt_bind
    · cases target with
      | read name => exact tolerates_pure fun _ _ _ _ h => by cases h
      | _ => exact fun _ _ _ _ _ _ _ hr => absurd hr not_reads_reportAt_bind
  · rcases x with _ | ⟨compoundOp, mark⟩
    · exact tolerates_pure fun _ _ h => h
    · refine tolerates_target fun target value => ?_
      cases target with
      | read name => exact .inl ⟨name, rfl⟩
      | _ => exact .inr fun _ _ _ _ => not_reads_reportAt_bind

theorem opens_operand : T.OpensAll (n + 1) Expr.SameName (operand (.level n)) := by
  refine opens_accept_bind (by decide) (fun keyword => ?_) (opens_compound h)
  refine (opens_functionRest h _ _).bind (fun _ => opens_pure _) ?_
  exact tolerates_pure fun _ _ _ _ h => by cases h

theorem opens_assignment : T.OpensAll (n + 1) Expr.SameName (assignment (.level n)) := by
  refine (opens_operand h).bind (fun target => ?_) (tolerates_bind fun x => ?_)
  · refine opens_accept_bind (by decide) (fun mark => ?_) (opens_pure _)
    refine (opens_nested h.assignment).bind (fun value => ?_) ?_
    · cases target with
      | read name => exact opens_pure _
      | _ => exact opens_of_not_reads fun _ _ _ _ => not_reads_reportAt_bind
    · cases target with
      | read name => exact tolerates_pure fun _ _ _ _ h => by cases h
      | _ => exact fun _ _ _ _ _ _ _ hr => absurd hr not_reads_reportAt_bind
  · rcases x with _ | mark
    · exact tolerates_pure fun _ _ h => h
    · refine tolerates_target fun target value => ?_
      cases target with
      | read name => exact .inl ⟨name, rfl⟩
      | _ => exact .inr fun _ _ _ _ => not_reads_reportAt_bind

theorem opens_expression : T.OpensAll (n + 1) Expr.SameName (expression (.level n)) :=
  opens_nested (opens_assignment h)

/-! ### Statements -/

theorem opens_expressionStatement :
    T.OpensAll (n + 1) (Any Stmt) (expressionStatement (.level n)) := by
  refine (opens_expression h).bind (fun _ => ?_) ?_
  · exact opens_consume_bind (by decide) fun _ => opens_pure _
  · exact tolerates_bind fun _ => tolerates_pure fun _ _ _ => trivial

theorem opens_letRest (keyword : Token) : T.OpensAll n (Any Stmt) (letRest (.level n) keyword) := by
  refine opens_consume_bind (by decide) fun name => Opens.bind (R := Any (Option Expr)) ?_
    (fun _ => opens_consume_bind (by decide) fun _ => opens_pure _) ?_
  · refine opens_accept_bind (by decide) (fun _ => ?_) (opens_pure _)
    refine (h.expression.fewer (by omega)).bind (fun _ => opens_pure _) ?_
    exact tolerates_pure fun _ _ _ => trivial
  · exact tolerates_bind fun _ => tolerates_pure fun _ _ _ => trivial

theorem opens_clause (ending : Kind) :
    T.OpensAll n (Any (Option Expr)) (clause (.level n) ending) := by
  refine opens_peek_bind fun t _ => ?_
  split
  · exact opens_pure _
  · refine (OpensAll.next h.expression).bind (fun _ => opens_pure _) ?_
    exact tolerates_pure fun _ _ _ => trivial

theorem opens_initialClause :
    T.OpensAll n (Any (Option Stmt)) (initialClause (.level n)) := by
  refine opens_accept_bind (by decide) (fun _ => opens_pure _) ?_
  refine opens_accept_bind (by decide) (fun keyword => ?_) ?_
  · refine ((opens_letRest h keyword).fewer (by omega)).bind (fun _ => opens_pure _) ?_
    exact tolerates_pure fun _ _ _ => trivial
  · refine ((opens_expressionStatement h).fewer (by omega)).bind (fun _ => opens_pure _) ?_
    exact tolerates_pure fun _ _ _ => trivial

/-- A statement that is the last part of another. -/
theorem opens_last {m : Nat} (hm : m ≤ n) (f : Stmt → Stmt) :
    T.OpensAll m (Any Stmt) (do
      let body ← (Rules.level n).statement
      pure (f body)) :=
  (h.statement.fewer hm).bind (fun _ => opens_pure _) (tolerates_pure fun _ _ _ => trivial)

theorem opens_forRest (keyword : Token) :
    T.OpensAll n (Any Stmt) (forRest (.level n) keyword) := by
  have hclause (m : Nat) (hm : m ≤ n) (ending : Kind) :
      T.OpensAll m (Any (Option Expr)) (clause (.level n) ending) :=
    (opens_clause h ending).fewer hm
  refine opens_consume_bind (by decide) fun _ => ?_
  refine ((opens_initialClause h).fewer (by omega)).bind (fun initial => ?_) ?_
  · refine (hclause _ (by omega) _).bind (fun condition => ?_) ?_
    · refine opens_consume_bind (by decide) fun _ => ?_
      refine (hclause _ (by omega) _).bind (fun step => ?_) ?_
      · exact opens_consume_bind (by decide) fun _ => opens_last h (by omega) _
      · exact tolerates_bind fun _ => tolerates_bind fun _ => tolerates_pure fun _ _ _ => trivial
    · refine tolerates_bind fun _ => tolerates_bind fun _ => tolerates_bind fun _ => ?_
      exact tolerates_bind fun _ => tolerates_pure fun _ _ _ => trivial
  · refine tolerates_bind fun _ => tolerates_bind fun _ => tolerates_bind fun _ => ?_
    exact tolerates_bind fun _ => tolerates_bind fun _ => tolerates_pure fun _ _ _ => trivial

theorem opens_ifRest (keyword : Token) : T.OpensAll n (Any Stmt) (ifRest (.level n) keyword) := by
  refine opens_consume_bind (by decide) fun _ => ?_
  refine (h.expression.any.fewer (by omega)).bind (fun condition => ?_) ?_
  · refine opens_consume_bind (by decide) fun _ => ?_
    refine (h.statement.fewer (by omega)).bind (fun whenTrue => ?_) ?_
    · exact opens_accept_bind (by decide) (fun _ => opens_last h (by omega) _) (opens_pure _)
    · refine tolerates_bind fun o => ?_
      cases o with
      | none => exact tolerates_pure fun _ _ _ => trivial
      | some => exact tolerates_bind fun _ => tolerates_pure fun _ _ _ => trivial
  · refine tolerates_bind fun _ => tolerates_bind fun _ => tolerates_bind fun o => ?_
    cases o with
    | none => exact tolerates_pure fun _ _ _ => trivial
    | some => exact tolerates_bind fun _ => tolerates_pure fun _ _ _ => trivial

theorem opens_whileRest (keyword : Token) :
    T.OpensAll n (Any Stmt) (whileRest (.level n) keyword) := by
  refine opens_consume_bind (by decide) fun _ => ?_
  refine (h.expression.any.fewer (by omega)).bind (fun condition => ?_) ?_
  · exact opens_consume_bind (by decide) fun _ => opens_last h (by omega) _
  · exact tolerates_bind fun _ => tolerates_bind fun _ => tolerates_pure fun _ _ _ => trivial

theorem opens_returnRest (keyword : Token) :
    T.OpensAll n (Any Stmt) (returnRest (.level n) keyword) := by
  refine (opens_clause h _).bind (fun _ => ?_) ?_
  · exact opens_consume_bind (by decide) fun _ => opens_pure _
  · exact tolerates_bind fun _ => tolerates_pure fun _ _ _ => trivial

theorem opens_statement : T.OpensAll (n + 1) (Any Stmt) (statement (.level n)) := by
  refine opens_nested (opens_peek_bind fun t _ => ?_)
  split
  all_goals try rename_i hkind
  · exact opens_skip_bind (by simp [hkind]) (opens_forRest h t)
  · exact opens_skip_bind (by simp [hkind]) (opens_ifRest h t)
  · exact opens_skip_bind (by simp [hkind]) (opens_returnRest h t)
  · exact opens_skip_bind (by simp [hkind]) (opens_whileRest h t)
  · refine opens_skip_bind (by simp [hkind]) ?_
    exact opens_consume_bind (by decide) fun _ => opens_pure _
  · refine opens_skip_bind (by simp [hkind]) ?_
    exact opens_consume_bind (by decide) fun _ => opens_pure _
  · refine opens_skip_bind_brace ?_ ?_
    · refine (opens_blockRest h).bind (fun _ => opens_pure _) ?_
      exact tolerates_pure fun _ _ _ => trivial
    · refine (enters_blockRest.fewer (Nat.le_of_eq (Nat.add_sub_cancel n 1))).bind ?_
      exact tolerates_pure fun _ _ _ => trivial
  · exact (opens_expressionStatement h).next

end

/-- A word and a name that begin a function, or what is read if they are not next. -/
theorem opens_functionStart?_bind {β : Type} {S : β → β → Prop} {m : Nat}
    {f : Option (Token × Token) → Parser β} (hsome : ∀ x, T.OpensAll (m - 1) S (f (some x)))
    (hnone : T.OpensAll m S (f none)) : T.OpensAll m S (functionStart? >>= f) := by
  intro s us b rest hend hlen _ hr
  by_cases hfn : ∃ keyword name vs, us = keyword :: name :: vs ∧ keyword.kind = .fnWord ∧
      name.kind = .identifier
  · obtain ⟨keyword, name, vs, rfl, hkeyword, hname⟩ := hfn
    simp only [List.length_cons] at hlen
    have hsuffix : vs <:+ keyword :: name :: vs :=
      (List.suffix_cons name vs).trans (List.suffix_cons keyword _)
    refine (hsome (keyword, name)).step hsuffix (fun ts => ?_) hend (by omega) hr
    · exact (reads_functionStart? _).2 (.inl ⟨keyword, name, rfl, hkeyword, hname, rfl⟩)
  · refine hnone.step us.suffix_refl (fun ts => ?_) hend hlen hr
    refine (reads_functionStart? _).2 (.inr ⟨rfl, rfl, ?_⟩)
    rintro ⟨keyword, name, vs, heq, hkeyword, hname⟩
    -- the brace is neither the word nor the name
    rcases us with _ | ⟨u, _ | ⟨v, us⟩⟩
    · simp only [List.nil_append, List.cons.injEq] at heq
      rw [← heq.1, T.kind] at hkeyword
      cases hkeyword
    · simp only [List.cons_append, List.nil_append, List.cons.injEq] at heq
      rw [← heq.2.1, T.kind] at hname
      cases hname
    · simp only [List.cons_append, List.cons.injEq] at heq
      obtain ⟨rfl, rfl, -⟩ := heq
      exact hfn ⟨u, v, us, rfl, hkeyword, hname⟩

variable (h : T.RulesOpen n)

include h

theorem opens_declarationForm :
    T.OpensAll (n + 1) (Any Stmt) (declarationForm (.level n)) := by
  refine opens_functionStart?_bind (fun x => ?_)
    (opens_accept_bind (by decide) (fun keyword => ?_) ?_)
  · refine ((opens_functionRest h _ _).fewer (by omega)).bind (fun _ => opens_pure _) ?_
    exact tolerates_pure fun _ _ _ => trivial
  · exact (opens_letRest h keyword).fewer (by omega)
  · exact opens_statement h

end Production

/-- Productions around rules that open the brace do so, with one token more. -/
theorem Braced.RulesOpen.next {T : Braced} {n : Nat} (h : T.RulesOpen n) : T.RulesOpen (n + 1) where
  expression := Production.opens_expression h
  assignment := Production.opens_assignment h
  compound := Production.opens_compound h
  unary := Production.opens_unary h
  statement := Production.opens_statement h
  declaration := opens_recovering (Production.opens_declarationForm h)

/-- The rules of all levels stop before the brace or carry the body. -/
theorem Braced.rulesOpen_level (T : Braced) (n : Nat) : T.RulesOpen n := by
  induction n with
  | zero =>
    have hnone {α : Type} {R : α → α → Prop} {p : Parser α} : T.OpensAll 0 R p :=
      fun _ _ _ _ _ hlen => absurd hlen (Nat.not_lt_zero _)
    exact ⟨hnone, hnone, hnone, hnone, hnone, hnone⟩
  | succ n ih => exact ih.next

end Scripting
