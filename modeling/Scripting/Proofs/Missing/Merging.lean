import Scripting.Proofs.Missing.Bodies
import Scripting.Proofs.Same.Compound

/-!
# Expressions that go on

* `Reading.TooDeep` : something was found nested too deep;
* `Parser.Passes p s ts rest` : `p` reads the tokens up to `rest` without a fault, unless something
  in them is nested too deep;
* `IsOperand`, `IsSuffix`, `Flat` : tokens that pass as an operand, as calls behind one, and as
  operands with operators between them;
* `Expression.goes_on` : if an expression is followed by another that begins with a parenthesis or a
  minus, both are read as one, unless the first ends with the body of a function.

An operand passes at any depth if it is derived at some depth, since how many constructs are open
decides nothing but whether something is nested too deep.
-/

namespace Scripting

set_option autoImplicit false

open Scripting.Parser Scripting.Grammar

variable {α β : Type}

/-! ## Readings that may be too deep -/

/-- Something was found nested too deep. -/
def Reading.TooDeep (r : Reading α) : Prop := ∃ d ∈ r.faults, d.cause = .parse .tooMuchNesting

namespace Parser

/-- The tokens are read up to `rest` without a fault, unless something is nested too deep. -/
def Passes (p : Parser α) (s : Surroundings) (ts rest : List Token) : Prop :=
  (∃ a, p.Reads s ts a rest) ∨ (p s ts).TooDeep

variable {s : Surroundings} {ts mid rest : List Token}

theorem Reads.passes {p : Parser α} {a : α} (h : p.Reads s ts a rest) : p.Passes s ts rest :=
  .inl ⟨a, h⟩

theorem TooDeep.bind {p : Parser α} {f : α → Parser β} (h : (p s ts).TooDeep) :
    ((p >>= f) s ts).TooDeep := by
  obtain ⟨d, hd, hcause⟩ := h
  exact ⟨d, Comparison.faults_subset_bind p f s ts hd, hcause⟩

theorem Reads.andThen_passes {p : Parser α} {f : α → Parser β} {a : α} (h : p.Reads s ts a mid)
    (hf : (f a).Passes s mid rest) : (p >>= f).Passes s ts rest := by
  unfold Passes Reads
  rwa [h.andThen]

theorem Passes.bind {p : Parser α} {f : α → Parser β} (h : p.Passes s ts mid)
    (hf : ∀ a, (f a).Passes s mid rest) : (p >>= f).Passes s ts rest := by
  rcases h with ⟨a, ha⟩ | hdeep
  · exact ha.andThen_passes (hf a)
  · exact .inr (TooDeep.bind hdeep)

theorem passes_pure (a : α) : (pure a : Parser α).Passes s ts ts :=
  Reads.passes ((reads_pure a a).2 ⟨rfl, rfl⟩)

theorem passes_nested {p : Parser α} (h : p.Passes { s with depth := s.depth + 1 } ts rest) :
    (nested p).Passes s ts rest := by
  by_cases hdeep : maxNesting ≤ s.depth
  · refine .inr ⟨.atToken (.parse .tooMuchNesting) (ts.headD s.ending), ?_, rfl⟩
    unfold nested
    rw [if_pos hdeep]
    exact List.mem_singleton_self _
  · rcases h with ⟨a, ha⟩ | hdeeper
    · exact .inl ⟨a, (reads_nested _ _).2 ⟨by omega, ha⟩⟩
    · refine .inr ?_
      unfold nested
      rwa [if_neg hdeep]

/-- What is read without a fault at one depth passes at any other. -/
theorem Reads.passes_at {p : Parser α} {e : Token} {d : Nat} {a : α} {n j : Nat}
    (h : p.Reads ⟨e, d⟩ ts a rest) (hend : e.kind = .endOfInput)
    (agree : Comparison.shallower.AgreeAll n j p p) (hlen : ts.length < n) (d' : Nat) :
    p.Passes ⟨e, d'⟩ ts rest := by
  rcases Nat.le_total d' d with hle | hle
  · exact .inl ⟨a, (agree ⟨e, d⟩ ⟨e, d'⟩ ts ⟨rfl, hend, hle⟩ hlen trivial).reads h⟩
  · rcases agree ⟨e, d'⟩ ⟨e, d⟩ ts ⟨rfl, hend, hle⟩ hlen trivial with hdeep | ⟨heq, -, -⟩
    · exact .inr hdeep
    · exact .inl ⟨a, heq.trans h⟩

end Parser

/-! ## Operands -/

/-- The tokens pass as an operand at this depth, unless a parenthesis makes them longer. -/
def IsOperand (e : Token) (d : Nat) (us : List Token) : Prop :=
  ∀ n rest, (us ++ rest).length ≤ n → nextKind? rest ≠ some .leftParen →
    (Production.unary (.level n)).Passes ⟨e, d⟩ (us ++ rest) rest

/-- The tokens pass as calls behind a callee at this depth, if what stands behind them passes. -/
def IsSuffix (e : Token) (d : Nat) (us : List Token) : Prop :=
  ∀ n bound callee more rest, (us ++ more).length ≤ n → (us ++ more).length ≤ bound →
    (∀ bound' callee', more.length ≤ bound' →
      (Production.callFrom (.level n) bound' callee').Passes ⟨e, d⟩ more rest) →
    (Production.callFrom (.level n) bound callee).Passes ⟨e, d⟩ (us ++ more) rest

theorem IsSuffix.append {e : Token} {d : Nat} {us vs : List Token} (h : IsSuffix e d us)
    (h' : IsSuffix e d vs) : IsSuffix e d (us ++ vs) := by
  intro n bound callee more rest hlen hbound hmore
  rw [List.append_assoc] at hlen hbound ⊢
  refine h n bound callee (vs ++ more) rest hlen hbound fun bound' callee' hbound' => ?_
  simp only [List.length_append] at hlen
  exact h' n bound' callee' more rest (by simp only [List.length_append]; omega) hbound' hmore

/-- One turn of the loop behind a callee reads one call. -/
theorem callFrom_of_call {inner : Rules} {s : Surroundings} {bound : Nat} {callee : Expr}
    {opening closing : Token} {us more : List Token} {arguments : List Expr}
    (hopening : opening.kind = .leftParen)
    (harguments : (items (inner.bound + 1) inner.expression .tooManyArguments).Reads s us arguments
      (closing :: more)) (hclosing : closing.kind = .rightParen) :
    Production.callFrom inner (bound + 1) callee s (opening :: us) =
      Production.callFrom inner bound
        (.call (callee.span.through closing.span) closing callee arguments) s more := by
  have hopen : (accept .leftParen).Reads s (opening :: us) (some opening) us :=
    (reads_accept _ _).2 (.inl ⟨opening, rfl, hopening, rfl⟩)
  have hclose : (consume .rightParen .expectedParenAfterArguments).Reads s (closing :: more) closing
      more := (reads_consume _ _ _).2 ⟨hclosing, rfl⟩
  rw [Production.callFrom, hopen.andThen]
  dsimp only
  rw [harguments.andThen, hclose.andThen]

/-- Reading a call comes down to going on behind it. -/
theorem Grammar.Call.runs {e : Token} {d n : Nat} {us : List Token} {f : Expr} : Call d us f →
    us.length ≤ n → ∃ k ≤ us.length, ∀ bound more,
      (Production.primary (.level n) >>= Production.callFrom (.level n) (bound + k)) ⟨e, d⟩
        (us ++ more) = Production.callFrom (.level n) bound f ⟨e, d⟩ more
  | .primary whole, hlen =>
    ⟨0, Nat.zero_le _, fun bound more => (whole.reads hlen rfl).andThen _⟩
  | @Call.call _ ts us opening closing _ arguments left hopening right hclosing, hlen => by
    simp only [List.length_append, List.length_cons, List.length_nil] at hlen
    obtain ⟨k, hk, hleft⟩ := left.runs (n := n) (by omega)
    refine ⟨k + 1, by simp only [List.length_append, List.length_cons]; omega,
      fun bound more => ?_⟩
    have hright : (items ((Rules.level n).bound + 1) (Rules.level n).expression
        .tooManyArguments).Reads ⟨e, d⟩ (us ++ closing :: more) arguments (closing :: more) := by
      rw [Rules.bound_level]
      exact right.reads (closing :: more) (by omega) rfl (congrArg some hclosing)
    have hturn := hleft (bound + 1) (opening :: (us ++ closing :: more))
    rw [callFrom_of_call hopening hright hclosing] at hturn
    have hbound : bound + (k + 1) = bound + 1 + k := by omega
    have htokens : ts ++ opening :: us ++ [closing] ++ more =
        ts ++ opening :: (us ++ closing :: more) := by simp
    rw [hbound, htokens]
    exact hturn

/-- No operator before operands begins a primary expression. -/
theorem UnaryOp.ofKind?_of_startsPrimary {k : Kind} (h : k.startsPrimary = true) :
    ofKind? k = none := by
  cases k <;> first | rfl | cases h

theorem Grammar.Unary.passes_append {e : Token} {us vs rest : List Token} {n : Nat}
    (hvs : ∀ d, IsSuffix e d vs) {d : Nat} {f : Expr} : Unary d us f →
      (us ++ vs ++ rest).length ≤ n → nextKind? rest ≠ some .leftParen →
        (Production.unary (.level n)).Passes ⟨e, d⟩ (us ++ vs ++ rest) rest
  | @Unary.operator _ mark op _ _ hmark room operand, hlen, hrest => by
    simp only [List.cons_append, List.length_cons] at hlen
    obtain ⟨n, rfl⟩ := Nat.exists_eq_succ_of_ne_zero (Nat.ne_zero_of_lt hlen)
    refine Reads.andThen_passes ((reads_accept? _ _).2 (.inl ⟨op, mark, rfl, hmark, rfl⟩)) ?_
    refine Passes.bind (passes_nested ?_) fun _ => passes_pure _
    exact operand.passes_append hvs (Nat.le_of_lt_succ hlen) hrest
  | .call whole, hlen, hrest => by
    simp only [List.append_assoc] at hlen ⊢
    have hshort := hlen
    rw [List.length_append] at hshort
    obtain ⟨k, hk, hcall⟩ := whole.runs (n := n) (by omega)
    obtain ⟨t, us, rfl, ht⟩ := whole.starts
    refine Reads.andThen_passes ((reads_accept? _ _).2 (.inr ⟨rfl, rfl, ?_⟩)) ?_
    · rintro k hk
      obtain rfl := Option.some.inj hk
      exact UnaryOp.ofKind?_of_startsPrimary ht
    · have hbound : n + 1 = n + 1 - k + k := by omega
      unfold Parser.Passes Reads
      dsimp only
      rw [Production.call, Rules.bound_level, hbound, hcall]
      refine hvs _ n _ _ rest rest (by omega) (by omega) fun bound callee _ => ?_
      exact (reads_callFrom_stop hrest).passes

/-- An operand with calls behind it is one. -/
theorem Grammar.Unary.isOperand_append {e : Token} {us vs : List Token}
    (hvs : ∀ d, IsSuffix e d vs) {d : Nat} {f : Expr} (h : Unary d us f) :
    IsOperand e d (us ++ vs) :=
  fun _ _ hlen hrest => h.passes_append hvs hlen hrest

section

variable {e : Token} (hend : e.kind = .endOfInput)

theorem rulesAgree_shallower (n : Nat) :
    Comparison.shallower.RulesAgree n (Rules.level n) (Rules.level n) :=
  Comparison.shallower.rulesAgree_level (Nat.le_refl n) (Nat.le_refl n)

include hend

theorem Grammar.Unary.isOperand {d : Nat} {us : List Token} {f : Expr} (h : Unary d us f)
    (d' : Nat) : IsOperand e d' us := by
  intro n rest hlen hrest
  have hr : (Production.unary (.level n)).Reads ⟨e, d⟩ (us ++ rest) f rest :=
    h.reads_level (by simp only [List.length_append] at hlen; omega) rfl hrest
  exact hr.passes_at hend (Production.agree_unary (rulesAgree_shallower n))
    (Nat.lt_succ_of_le hlen) d'

/-- One call, and what stands behind it. -/
theorem isSuffix_call {d : Nat} {opening closing : Token} {us : List Token} {arguments : List Expr}
    (hopening : opening.kind = .leftParen) (inside : Arguments d us arguments)
    (hclosing : closing.kind = .rightParen) (d' : Nat) :
    IsSuffix e d' (opening :: us ++ [closing]) := by
  intro n bound callee more rest hlen hbound hmore
  simp only [List.length_append, List.length_cons, List.length_nil] at hlen hbound
  obtain ⟨bound, rfl⟩ := Nat.exists_eq_succ_of_ne_zero (by omega : bound ≠ 0)
  have hr : (items (n + 1) (Rules.level n).expression .tooManyArguments).Reads ⟨e, d⟩
      (us ++ closing :: more) arguments (closing :: more) :=
    inside.reads (closing :: more) (by omega) rfl (congrArg some hclosing)
  have hrules := rulesAgree_shallower n
  have harguments := hr.passes_at hend (Comparison.agree_items hrules.expression .tooManyArguments
    (Nat.le_succ n) (Nat.le_succ n))
    (by simp only [List.length_append, List.length_cons]; omega) d'
  simp only [List.cons_append, List.append_assoc, List.nil_append]
  rw [Production.callFrom]
  refine Reads.andThen_passes ((reads_accept _ _).2 (.inl ⟨opening, rfl, hopening, rfl⟩)) ?_
  dsimp only
  rw [Rules.bound_level]
  refine harguments.bind fun arguments' => ?_
  refine Reads.andThen_passes ((reads_consume _ _ _).2 ⟨hclosing, rfl⟩) ?_
  exact hmore bound _ (by omega)

/-- A value that begins with a parenthesis is an argument if a callee stands before it. -/
theorem Grammar.Primary.isSuffix {d : Nat} {us : List Token} {f : Expr} (h : Primary d us f)
    (hnext : nextKind? us = some .leftParen) (d' : Nat) : IsSuffix e d' us := by
  cases h with
  | literal hvalue =>
    simp only [nextKind?_cons, Option.some.injEq] at hnext
    simp [Token.value?, hnext] at hvalue
  | name hname => simp [hname] at hnext
  | group hopening inside hclosing =>
    have hfew {e : Expr} : [e].length ≤ maxItems := by rw [List.length_singleton]; decide
    exact isSuffix_call hend hopening (.some (.one inside) hfew) hclosing d'

/-- And what is called there is called as well. -/
theorem Grammar.Call.isSuffix {d : Nat} (d' : Nat) {us : List Token} {f : Expr} :
    Call d us f → nextKind? us = some .leftParen → IsSuffix e d' us
  | .primary whole, hnext => whole.isSuffix hend hnext d'
  | .call left hopening right hclosing, hnext => by
    obtain ⟨t, vs, rfl, -⟩ := left.starts
    rw [List.append_assoc]
    exact (left.isSuffix d' hnext).append (isSuffix_call hend hopening right hclosing d')

end

/-! ## Operands and operators -/

/-- The kind is one of an operator between operands. -/
def IsOperator (k : Kind) : Prop := ∃ op? ∈ Joint.levels, (op? k).isSome = true

theorem IsOperator.ne_leftParen {k : Kind} (h : IsOperator k) : k ≠ .leftParen := by
  obtain ⟨op?, hop, hk⟩ := h
  rintro rfl
  rw [separateLevels.leftParen op? hop] at hk
  cases hk

/-- The tokens are operands, and operators between them, of whatever levels. -/
inductive Flat (e : Token) (d : Nat) : List Token → Prop
  | one {us : List Token} (h : IsOperand e d us) : Flat e d us
  | more {us vs : List Token} {mark : Token} (h : IsOperand e d us) (hmark : IsOperator mark.kind)
      (others : Flat e d vs) : Flat e d (us ++ mark :: vs)

/-- What is left of operands and operators behind those of the levels: no more than stands behind
all of them, or operands behind an operator of another level. -/
inductive FlatBehind (e : Token) (d : Nat) (levels : List (Kind → Option Joint))
    (rest : List Token) : List Token → Prop
  | all : FlatBehind e d levels rest rest
  | operator {mark : Token} {vs : List Token} (hmark : IsOperator mark.kind)
      (other : ∀ op? ∈ levels, op? mark.kind = none) (others : Flat e d vs) :
      FlatBehind e d levels rest (mark :: (vs ++ rest))

section

variable {e mark : Token} {d n : Nat} {us vs rest : List Token}

theorem Flat.append (h : Flat e d us) (hmark : IsOperator mark.kind) (h' : Flat e d vs) :
    Flat e d (us ++ mark :: vs) := by
  induction h with
  | one h => exact .more h hmark h'
  | more h hmark' _ ih =>
    rw [List.append_assoc, List.cons_append]
    exact .more h hmark' ih

/-- A chain of operators goes on behind its first operand. -/
theorem FlatBehind.passes_chainFrom {op? : Kind → Option Joint}
    {levels : List (Kind → Option Joint)} {operand : Parser Expr}
    (hoperand : ∀ {ts : List Token}, Flat e d ts → (ts ++ rest).length ≤ n →
      ∃ left, FlatBehind e d levels rest left ∧ left.length ≤ (ts ++ rest).length ∧
        operand.Passes ⟨e, d⟩ (ts ++ rest) left)
    (hrest : ∀ k ∈ nextKind? rest, op? k = none) (bound : Nat) {left : List Token}
    (h : FlatBehind e d levels rest left) (hlen : left.length ≤ n) (hbound : left.length ≤ bound) :
    ∃ left', FlatBehind e d (op? :: levels) rest left' ∧ left'.length ≤ left.length ∧
      ∀ a, (chainFrom op? Joint.join operand bound a).Passes ⟨e, d⟩ left left' := by
  induction bound generalizing left with
  | zero =>
    cases h with
    | all => exact ⟨rest, .all, Nat.le_refl _, fun a => (reads_chainFrom_stop hrest).passes⟩
    | operator => simp at hbound
  | succ bound ih =>
    cases h with
    | all => exact ⟨rest, .all, Nat.le_refl _, fun a => (reads_chainFrom_stop hrest).passes⟩
    | @operator mark vs hmark other others =>
      cases hop : op? mark.kind with
      | none =>
        refine ⟨_, .operator hmark ?_ others, Nat.le_refl _, fun a => ?_⟩
        · exact List.forall_mem_cons.2 ⟨hop, other⟩
        · exact (reads_chainFrom_stop (by simpa using hop)).passes
      | some joint =>
        simp only [List.length_cons] at hlen hbound
        obtain ⟨mid, hmid, hshort, hpasses⟩ := hoperand others (by omega)
        obtain ⟨left', hleft, hshort', hchain⟩ := ih hmid (by omega) (by omega)
        refine ⟨left', hleft, by simp only [List.length_cons]; omega, fun a => ?_⟩
        rw [chainFrom]
        refine Reads.andThen_passes
          ((reads_accept? _ _).2 (.inl ⟨joint, mark, rfl, hop, rfl⟩)) ?_
        exact hpasses.bind fun right => hchain _

/-- Operands and operators pass as those of the levels, up to an operator of another one. -/
theorem Flat.passes_joinedWith (hrest : Stops (Kind.continuesJoined Joint.levels) rest)
    (levels : List (Kind → Option Joint)) (hlevels : ∀ op? ∈ levels, op? ∈ Joint.levels)
    {ts : List Token} (h : Flat e d ts) (hlen : (ts ++ rest).length ≤ n) :
    ∃ left, FlatBehind e d levels rest left ∧ left.length ≤ (ts ++ rest).length ∧
      (joinedWith (.level n) levels).Passes ⟨e, d⟩ (ts ++ rest) left := by
  induction levels generalizing ts with
  | nil =>
    cases h with
    | one h => exact ⟨rest, .all, by simp, h n rest hlen hrest.not_leftParen⟩
    | more h hmark others =>
      refine ⟨_, .operator hmark nofun others, by simp, ?_⟩
      rw [List.append_assoc] at hlen ⊢
      exact h n _ hlen (by simpa using hmark.ne_leftParen)
  | cons op? levels ih =>
    have hinner := fun op? hop => hlevels op? (List.mem_cons_of_mem _ hop)
    obtain ⟨mid, hmid, hshort, hpasses⟩ := ih hinner h hlen
    have hnone : ∀ k ∈ nextKind? rest, op? k = none := by
      intro k hk
      have hstop := hrest k hk
      simp only [Kind.continuesJoined, Bool.or_eq_false_iff, List.any_eq_false] at hstop
      simpa using hstop.2 op? (hlevels op? List.mem_cons_self)
    obtain ⟨left, hleft, hshort', hchain⟩ := FlatBehind.passes_chainFrom
      (fun h' hlen' => ih hinner h' hlen') hnone (n + 1) hmid (by omega) (by omega)
    refine ⟨left, hleft, by omega, ?_⟩
    show (chain _ op? Joint.join (joinedWith (.level n) levels)).Passes _ _ _
    rw [Rules.bound_level]
    exact hpasses.bind hchain

/-- Operands and operators of whatever levels pass as a whole. -/
theorem Flat.passes (h : Flat e d us) (hrest : Stops (Kind.continuesJoined Joint.levels) rest)
    (hlen : (us ++ rest).length ≤ n) :
    (Production.joined (.level n)).Passes ⟨e, d⟩ (us ++ rest) rest := by
  obtain ⟨left, hleft, -, hpasses⟩ := h.passes_joinedWith hrest Joint.levels (fun _ h => h) hlen
  cases hleft with
  | all => exact hpasses
  | operator hmark other =>
    obtain ⟨op?, hop, hk⟩ := hmark
    rw [other op? hop] at hk
    cases hk

end

/-! ### Derived operands and operators -/

/-- All levels are levels of operators. -/
def KnownLevels (levels : List (Kind → Option Joint)) : Prop := ∀ op? ∈ levels, op? ∈ Joint.levels

theorem KnownLevels.tail {op? : Kind → Option Joint} {levels : List (Kind → Option Joint)}
    (h : KnownLevels (op? :: levels)) : KnownLevels levels :=
  fun op hop => h op (List.mem_cons_of_mem _ hop)

theorem KnownLevels.isOperator {op? : Kind → Option Joint} {levels : List (Kind → Option Joint)}
    (h : KnownLevels (op? :: levels)) {k : Kind} {joint : Joint} (hk : op? k = some joint) :
    IsOperator k :=
  ⟨op?, h op? List.mem_cons_self, by rw [hk]; rfl⟩

namespace Grammar

theorem StartsWith.nextKind?_append {p : Kind → Bool} {ts us : List Token} (h : StartsWith p ts) :
    nextKind? (ts ++ us) = nextKind? ts := by
  obtain ⟨t, vs, rfl, -⟩ := h
  rfl

/-- An expression that begins with a parenthesis or a minus is made of operands and operators. -/
theorem Expression.joined {d : Nat} {vs : List Token} {g : Expr} (h : Expression d vs g)
    (hnext : nextKind? vs = some .leftParen ∨ nextKind? vs = some .minus) :
    Joined Joint.levels (d + 1) vs g := by
  obtain ⟨-, inside⟩ := h
  cases inside with
  | assign hname => simp [hname] at hnext
  | operand whole =>
    cases whole with
    | function hkeyword => simp [hkeyword] at hnext
    | compound whole =>
      cases whole with
      | joined whole => exact whole
      | combine hname => simp [hname] at hnext

section

variable {e : Token} (hend : e.kind = .endOfInput)

include hend

theorem Joined.flat {levels : List (Kind → Option Joint)} {d : Nat} (d' : Nat) {us : List Token}
    {f : Expr} : Joined levels d us f → KnownLevels levels → Flat e d' us
  | .unary whole, _ => .one (whole.isOperand hend d')
  | .tighter whole, hlevels => whole.flat d' hlevels.tail
  | .join left hmark right, hlevels =>
    (left.flat d' hlevels).append (hlevels.isOperator hmark) (right.flat d' hlevels.tail)

/-- Calls behind operands and operators belong to the last operand. -/
theorem Joined.flat_append {levels : List (Kind → Option Joint)} {d : Nat} {us vs : List Token}
    {f : Expr} (hvs : ∀ d, IsSuffix e d vs) :
    Joined levels d us f → KnownLevels levels → Flat e d (us ++ vs)
  | .unary whole, _ => .one (whole.isOperand_append hvs)
  | .tighter whole, hlevels => whole.flat_append hvs hlevels.tail
  | .join left hmark right, hlevels => by
    rw [List.append_assoc, List.cons_append]
    exact (left.flat hend d hlevels).append (hlevels.isOperator hmark)
      (right.flat_append hvs hlevels.tail)

theorem Unary.isSuffix {d : Nat} {us : List Token} {f : Expr} (h : Unary d us f)
    (hnext : nextKind? us = some .leftParen) (d' : Nat) : IsSuffix e d' us := by
  cases h with
  | operator hmark =>
    simp only [nextKind?_cons, Option.some.injEq] at hnext
    simp [hnext, UnaryOp.ofKind?] at hmark
  | call whole => exact whole.isSuffix hend d' hnext

/-- What begins with a parenthesis goes on with calls behind operands and operators. -/
theorem Joined.flat_of_leftParen {levels : List (Kind → Option Joint)} {d d' : Nat}
    {us vs : List Token} {f g : Expr} (h : Joined Joint.levels d us f) :
    Joined levels d' vs g → KnownLevels levels → nextKind? vs = some .leftParen →
      Flat e d (us ++ vs)
  | .unary whole, _, hnext =>
    h.flat_append hend (fun d => whole.isSuffix hend hnext d) fun _ hop => hop
  | .tighter whole, hlevels, hnext => h.flat_of_leftParen whole hlevels.tail hnext
  | .join left hmark right, hlevels, hnext => by
    rw [left.starts.nextKind?_append] at hnext
    rw [← List.append_assoc]
    exact (h.flat_of_leftParen left hlevels hnext).append (hlevels.isOperator hmark)
      (right.flat hend d hlevels.tail)

theorem Unary.isOperand_of_minus {d : Nat} {us : List Token} {f : Expr} (h : Unary d us f)
    (hnext : nextKind? us = some .minus) (d' : Nat) : IsOperand e d' us.tail := by
  cases h with
  | operator _ _ operand => exact operand.isOperand hend d'
  | call whole =>
    obtain ⟨t, ts, rfl, ht⟩ := whole.starts
    simp only [nextKind?_cons, Option.some.injEq] at hnext
    simp [hnext, Kind.startsPrimary] at ht

/-- What begins with a minus goes on as a difference. -/
theorem Joined.flat_of_minus {levels : List (Kind → Option Joint)} {d : Nat} (d' : Nat)
    {vs : List Token} {g : Expr} : Joined levels d vs g → KnownLevels levels →
      nextKind? vs = some .minus → Flat e d' vs.tail
  | .unary whole, _, hnext => .one (whole.isOperand_of_minus hend hnext d')
  | .tighter whole, hlevels, hnext => whole.flat_of_minus d' hlevels.tail hnext
  | .join left hmark right, hlevels, hnext => by
    rw [left.starts.nextKind?_append] at hnext
    rw [List.tail_append_of_ne_nil (List.ne_nil_of_length_pos left.starts.length_pos)]
    exact (left.flat_of_minus d' hlevels hnext).append (hlevels.isOperator hmark)
      (right.flat hend d' hlevels.tail)

/-- The kinds with which an expression begins that may go on from another one. -/
theorem Joined.flat_both {d d' : Nat} {us vs : List Token} {f g : Expr}
    (h : Joined Joint.levels d us f) (h' : Joined Joint.levels d' vs g)
    (hnext : nextKind? vs = some .leftParen ∨ nextKind? vs = some .minus) :
    Flat e d (us ++ vs) := by
  rcases hnext with hnext | hnext
  · exact h.flat_of_leftParen hend h' (fun _ hop => hop) hnext
  · have htail := h'.flat_of_minus hend d (fun _ hop => hop) hnext
    obtain ⟨mark, ts, rfl, -⟩ := h'.starts
    refine (h.flat hend d fun _ hop => hop).append ?_ htail
    exact ⟨Joint.term?, by simp [Joint.levels], by rw [Option.some.inj hnext]; rfl⟩

/-! ### Expressions -/

section

variable {d' : Nat} {vs rest : List Token} {g : Expr} (h' : Joined Joint.levels d' vs g)
  (hnext : nextKind? vs = some .leftParen ∨ nextKind? vs = some .minus)
  (hrest : nextKind? rest = some .semicolon)

include h' hnext hrest

theorem Compound.passes {n d : Nat} {us : List Token} {f : Expr} : Compound d us f →
    (us ++ (vs ++ rest)).length ≤ n →
      (Production.compound (.level n)).Passes ⟨e, d⟩ (us ++ (vs ++ rest)) rest
  | .joined whole, hlen => by
    rw [← List.append_assoc] at hlen ⊢
    have hstops : Stops (Kind.continuesJoined Joint.levels) rest := stops_of_nextKind? hrest rfl
    refine ((whole.flat_both hend h' hnext).passes hstops hlen).bind fun target => ?_
    refine Reads.andThen_passes ((reads_accept? _ _).2 (.inr ⟨rfl, rfl, ?_⟩)) (passes_pure _)
    rw [hrest]
    rintro k hk
    obtain rfl := Option.some.inj hk
    rfl
  | @Compound.combine _ name mark op us _ hname hmark room right, hlen => by
    simp only [List.cons_append, List.length_cons] at hlen
    obtain ⟨n, rfl⟩ := Nat.exists_eq_succ_of_ne_zero (Nat.ne_zero_of_lt hlen)
    have hstops : Stops (Kind.continuesJoined Joint.levels) (mark :: (us ++ (vs ++ rest))) :=
      stops_cons (CompoundOp.stops_joined hmark)
    refine Reads.andThen_passes (reads_joined_name hname hstops) ?_
    refine Reads.andThen_passes ((reads_accept? _ _).2 (.inl ⟨op, mark, rfl, hmark, rfl⟩)) ?_
    refine Passes.bind (passes_nested ?_) fun value => passes_pure _
    exact right.passes (by omega)

/-- What stands behind a function is not read with it; behind anything else it is. -/
theorem Operand.goes_on {n d : Nat} {us : List Token} {f : Expr} (h : Operand d us f)
    (hlen : (us ++ (vs ++ rest)).length ≤ n) :
    (Production.operand (.level n)).Reads ⟨e, d⟩ (us ++ (vs ++ rest)) f (vs ++ rest) ∨
      (Production.operand (.level n)).Passes ⟨e, d⟩ (us ++ (vs ++ rest)) rest := by
  cases h with
  | @function _ keyword closing _ _ _ hkeyword part =>
    simp only [List.cons_append, List.length_cons] at hlen
    rw [List.length_append] at hlen
    refine .inl (Reads.bind ((reads_accept _ _).2 (.inl ⟨keyword, rfl, hkeyword, rfl⟩)) ?_)
    exact (part.reads (by omega) rfl).bind ((reads_pure _ _).2 ⟨rfl, rfl⟩)
  | compound whole =>
    have hpasses := whole.passes hend h' hnext hrest hlen
    obtain ⟨t, us, rfl, ht⟩ := whole.starts
    have hfn : t.kind ≠ .fnWord := Kind.ne_of_property ht rfl
    refine .inr (Reads.andThen_passes ((reads_accept _ _).2 (.inr ⟨rfl, rfl, ?_⟩)) hpasses)
    simpa using hfn

theorem Assignment.goes_on {n d : Nat} {us : List Token} {f : Expr} : Assignment d us f →
    (us ++ (vs ++ rest)).length ≤ n →
      (Production.assignment (.level n)).Reads ⟨e, d⟩ (us ++ (vs ++ rest)) f (vs ++ rest) ∨
        (Production.assignment (.level n)).Passes ⟨e, d⟩ (us ++ (vs ++ rest)) rest
  | .operand whole, hlen => by
    have hassign : nextKind? (vs ++ rest) ≠ some .assign := by
      rw [h'.starts.nextKind?_append]
      rcases hnext with hnext | hnext <;> simp [hnext]
    rcases whole.goes_on hend h' hnext hrest hlen with hr | hpasses
    · refine .inl (hr.bind ?_)
      exact Reads.bind ((reads_accept _ _).2 (.inr ⟨rfl, rfl, hassign⟩))
        ((reads_pure _ _).2 ⟨rfl, rfl⟩)
    · refine .inr (hpasses.bind fun target => ?_)
      exact Reads.andThen_passes ((reads_accept _ _).2 (.inr ⟨rfl, rfl, by simp [hrest]⟩))
        (passes_pure _)
  | @Assignment.assign _ name mark _ _ hname hmark room right, hlen => by
    simp only [List.cons_append, List.length_cons] at hlen
    obtain ⟨n, rfl⟩ := Nat.exists_eq_succ_of_ne_zero (Nat.ne_zero_of_lt hlen)
    have hstops {ts : List Token} : Stops Kind.continuesCompound (mark :: ts) :=
      stops_cons (by rw [hmark]; rfl)
    have haccept (s : Surroundings) (ts : List Token) :
        (accept .assign).Reads s (mark :: ts) (some mark) ts :=
      (reads_accept _ _).2 (.inl ⟨mark, rfl, hmark, rfl⟩)
    rcases right.goes_on (n := n) (by omega) with hr | hpasses
    · refine .inl ((reads_operand_name hname hstops).bind ((haccept _ _).bind ?_))
      exact Reads.bind ((reads_nested _ _).2 ⟨room, hr⟩) ((reads_pure _ _).2 ⟨rfl, rfl⟩)
    · refine .inr ((reads_operand_name hname hstops).andThen_passes ?_)
      refine (haccept _ _).andThen_passes ?_
      exact Passes.bind (passes_nested hpasses) fun value => passes_pure _

/-- Behind an expression, one that begins with a parenthesis or a minus is read with it, or else
only the first of the two is read. -/
theorem Expression.goes_on {n d : Nat} {us : List Token} {f : Expr} (h : Expression d us f)
    (hlen : (us ++ (vs ++ rest)).length < n) :
    (Rules.level n).expression.Reads ⟨e, d⟩ (us ++ (vs ++ rest)) f (vs ++ rest) ∨
      (Rules.level n).expression.Passes ⟨e, d⟩ (us ++ (vs ++ rest)) rest := by
  obtain ⟨room, inside⟩ := h
  obtain ⟨n, rfl⟩ := Nat.exists_eq_succ_of_ne_zero (Nat.ne_zero_of_lt hlen)
  rcases inside.goes_on hend h' hnext hrest (Nat.le_of_lt_succ hlen) with hr | hpasses
  · exact .inl ((reads_nested _ _).2 ⟨room, hr⟩)
  · exact .inr (passes_nested hpasses)

end

end

end Grammar

end Scripting
