import Scripting.Proofs.Grammar.Derivation

/-!
# Brackets

* `depthBehind` : how many brackets are open behind tokens, unless some are closed that were not
  opened; `Balanced` : tokens that close all that they open, and nothing else;
* `EndsInHeader` : tokens that end in the parentheses of a loop with clauses;
* `Nested semicolons ts` : tokens with brackets in each other, and with semicolons between braces
  and between the parentheses of a loop, and elsewhere only if `semicolons` says so;
* `Nested.split` : a semicolon in such tokens is one of those elsewhere, or in a header, or behind a
  brace with nothing left open in between;
* `Grammar.Expression.nested` and the like : the tokens of each construct are such.
-/

namespace Scripting

set_option autoImplicit false

/-! ## Depth -/

/-- The kinds that open a bracket. -/
def Kind.opensBracket : Kind → Bool
  | leftParen | leftBrace => true
  | _ => false

/-- The kinds that close a bracket. -/
def Kind.closesBracket : Kind → Bool
  | rightParen | rightBrace => true
  | _ => false

/-- How many brackets are open behind the tokens, if `depth` are open before them. There is no
answer if one is closed when none is open. -/
def depthBehind : (depth : Nat) → List Token → Option Nat
  | depth, [] => some depth
  | depth, t :: ts =>
    if t.kind.opensBracket then depthBehind (depth + 1) ts
    else if t.kind.closesBracket then
      match depth with
      | 0 => none
      | depth + 1 => depthBehind depth ts
    else depthBehind depth ts

/-- The tokens close all brackets that they open, and no others. -/
def Balanced (ts : List Token) : Prop := depthBehind 0 ts = some 0

instance (ts : List Token) : Decidable (Balanced ts) :=
  inferInstanceAs (Decidable (depthBehind 0 ts = some 0))

/-- The tokens end in the parentheses behind a `for`, where no other brackets are open. -/
def EndsInHeader (ts : List Token) : Prop :=
  ∃ (before : List Token) (keyword opening : Token) (inside : List Token),
    ts = before ++ keyword :: opening :: inside ∧ keyword.kind = .forWord ∧
      opening.kind = .leftParen ∧ Balanced inside

/-- The kinds of brackets. -/
def Kind.isBracket (k : Kind) : Bool := k.opensBracket || k.closesBracket

theorem Kind.not_opens_of_closes {k : Kind} (h : k.closesBracket = true) :
    k.opensBracket = false := by
  cases k <;> first | rfl | cases h

section

variable {t : Token} (depth : Nat) (ts : List Token)

theorem depthBehind_of_opens (ht : t.kind.opensBracket = true) :
    depthBehind depth (t :: ts) = depthBehind (depth + 1) ts := by
  simp [depthBehind, ht]

theorem depthBehind_of_closes (ht : t.kind.closesBracket = true) :
    depthBehind (depth + 1) (t :: ts) = depthBehind depth ts := by
  simp [depthBehind, ht, Kind.not_opens_of_closes ht]

theorem depthBehind_zero_of_closes (ht : t.kind.closesBracket = true) :
    depthBehind 0 (t :: ts) = none := by
  simp [depthBehind, ht, Kind.not_opens_of_closes ht]

theorem depthBehind_of_not (ht : t.kind.isBracket = false) :
    depthBehind depth (t :: ts) = depthBehind depth ts := by
  have hnot : t.kind.opensBracket = false ∧ t.kind.closesBracket = false := by
    simpa [Kind.isBracket] using ht
  simp [depthBehind, hnot]

end

theorem depthBehind_append (depth : Nat) (ts us : List Token) :
    depthBehind depth (ts ++ us) = (depthBehind depth ts).bind fun k => depthBehind k us := by
  fun_induction depthBehind depth ts with
  | case1 => rfl
  | case2 _ t ts h ih => rw [List.cons_append, depthBehind_of_opens _ _ h, ih]
  | case3 t ts _ h => rw [List.cons_append, depthBehind_zero_of_closes _ h, Option.bind_none]
  | case4 t ts _ h _ ih => rw [List.cons_append, depthBehind_of_closes _ _ h, ih]
  | case5 _ t ts h h' ih =>
    rw [List.cons_append, depthBehind_of_not _ _ (by simp [Kind.isBracket, h, h']), ih]

/-- With more brackets open before, as many more are open behind. -/
theorem depthBehind_add {depth k : Nat} {ts : List Token} (h : depthBehind depth ts = some k)
    (more : Nat) : depthBehind (depth + more) ts = some (k + more) := by
  fun_induction depthBehind depth ts with
  | case1 => rw [depthBehind, Option.some.inj h]
  | case2 _ t ts hopens ih =>
    rw [depthBehind_of_opens _ _ hopens, Nat.add_right_comm]
    exact ih h
  | case3 => cases h
  | case4 t ts _ hcloses _ ih =>
    rw [Nat.succ_add, Nat.succ_eq_add_one, depthBehind_of_closes _ _ hcloses]
    exact ih h
  | case5 _ t ts hopens hcloses ih =>
    rw [depthBehind_of_not _ _ (by simp [Kind.isBracket, hopens, hcloses])]
    exact ih h

namespace Balanced

variable {t opening closing : Token} {ts us : List Token}

theorem depth (h : Balanced ts) (depth : Nat) : depthBehind depth ts = some depth := by
  have hadd := depthBehind_add h depth
  rwa [Nat.zero_add] at hadd

theorem append (h : Balanced ts) (h' : Balanced us) : Balanced (ts ++ us) := by
  rw [Balanced, depthBehind_append, h, Option.bind_some]
  exact h'

theorem plain (ht : t.kind.isBracket = false) (h : Balanced ts) : Balanced (t :: ts) := by
  rwa [Balanced, depthBehind_of_not _ _ ht]

theorem of_plain (ht : t.kind.isBracket = false) (h : Balanced (t :: ts)) : Balanced ts := by
  rwa [Balanced, depthBehind_of_not _ _ ht] at h

theorem group (hopening : opening.kind.opensBracket = true) (h : Balanced ts)
    (hclosing : closing.kind.closesBracket = true) (h' : Balanced us) :
    Balanced (opening :: ts ++ closing :: us) := by
  rw [Balanced, List.cons_append, depthBehind_of_opens _ _ hopening, depthBehind_append, h.depth,
    Option.bind_some, depthBehind_of_closes _ _ hclosing]
  exact h'

/-- What stands behind balanced tokens is balanced if all of it is. -/
theorem of_append (h : Balanced ts) (h' : Balanced (ts ++ us)) : Balanced us := by
  rwa [Balanced, depthBehind_append, h, Option.bind_some] at h'

/-- What stands before a place in balanced tokens closes nothing that it does not open. -/
theorem exists_depth (h : Balanced (ts ++ us)) : ∃ k, depthBehind 0 ts = some k := by
  rw [Balanced, depthBehind_append] at h
  exact ⟨_, (Option.bind_eq_some_iff.1 h).choose_spec.1⟩

end Balanced

/-- Tokens behind a bracket that they do not close are not balanced. -/
theorem not_balanced_of_opens {before inside : List Token} {opening : Token} {k j : Nat}
    (hbefore : depthBehind 0 before = some k) (hopening : opening.kind.opensBracket = true)
    (hinside : depthBehind 0 inside = some j) : ¬ Balanced (before ++ opening :: inside) := by
  have hmore := depthBehind_add hinside (k + 1)
  rw [Nat.zero_add] at hmore
  rw [Balanced, depthBehind_append, hbefore, Option.bind_some, depthBehind_of_opens _ _ hopening,
    hmore]
  intro h
  have := Option.some.inj h
  omega

/-- Tokens that close a bracket that they did not open are not balanced. -/
theorem not_balanced_of_closes {before behind : List Token} {closing : Token}
    (hbefore : Balanced before) (hclosing : closing.kind.closesBracket = true) :
    ¬ Balanced (before ++ closing :: behind) := by
  rw [Balanced, depthBehind_append, hbefore, Option.bind_some,
    depthBehind_zero_of_closes _ hclosing]
  exact nofun

theorem Balanced.not_open {before inside : List Token} {opening : Token}
    (hopening : opening.kind.opensBracket = true) (hinside : Balanced inside) :
    ¬ Balanced (before ++ opening :: inside) := by
  intro h
  obtain ⟨k, hk⟩ := h.exists_depth
  exact not_balanced_of_opens hk hopening hinside h

theorem Balanced.not_endsInHeader {ts : List Token} (h : Balanced ts) : ¬ EndsInHeader ts := by
  rintro ⟨before, keyword, opening, inside, rfl, -, hopening, hinside⟩
  rw [List.append_cons] at h
  exact hinside.not_open (by rw [hopening]; rfl) h

theorem not_endsInHeader {ts : List Token} (h : ∀ t ∈ ts, t.kind ≠ .forWord) :
    ¬ EndsInHeader ts := by
  rintro ⟨before, keyword, opening, inside, rfl, hkeyword, -⟩
  exact h keyword (by simp) hkeyword

theorem EndsInHeader.behind {ts : List Token} (h : EndsInHeader ts) (before : List Token) :
    EndsInHeader (before ++ ts) := by
  obtain ⟨before', keyword, opening, inside, rfl, hkeyword, hopening, hinside⟩ := h
  exact ⟨before ++ before', keyword, opening, inside, by simp, hkeyword, hopening, hinside⟩

/-! ## A token among others -/

/-- A token of a list made of two stands in the first or in the second. -/
theorem split_append {ts us before behind : List Token} {t : Token}
    (h : ts ++ us = before ++ t :: behind) :
    (∃ left, ts = before ++ t :: left ∧ behind = left ++ us) ∨
      ∃ front, before = ts ++ front ∧ us = front ++ t :: behind := by
  rcases List.append_eq_append_iff.1 h with ⟨front, hbefore, hus⟩ | ⟨left, hts, hleft⟩
  · exact .inr ⟨front, hbefore, hus⟩
  · cases left with
    | nil => exact .inr ⟨[], by simpa using hts.symm, hleft.symm⟩
    | cons u left =>
      obtain ⟨rfl, rfl⟩ := List.cons.inj hleft
      exact .inl ⟨left, hts, rfl⟩

/-- A token that is not the first stands behind it. -/
theorem split_cons {ts before behind : List Token} {t u : Token}
    (h : u :: ts = before ++ t :: behind) (hne : u.kind ≠ t.kind) :
    ∃ front, before = u :: front ∧ ts = front ++ t :: behind := by
  cases before with
  | nil =>
    obtain ⟨rfl, -⟩ := List.cons.inj h
    exact absurd rfl hne
  | cons v front =>
    obtain ⟨rfl, hts⟩ := List.cons.inj h
    exact ⟨front, rfl, hts⟩

/-! ## Tokens with brackets in each other -/

/-- Brackets lie in each other, and semicolons lie between braces or between the parentheses behind
a `for`, or in no brackets at all if `semicolons` holds. -/
inductive Nested : (semicolons : Bool) → List Token → Prop
  | nil {b : Bool} : Nested b []
  | plain {b : Bool} {t : Token} {ts : List Token} (ht : t.kind.isBracket = false)
      (hsemicolon : t.kind = .semicolon → b = true) (others : Nested b ts) : Nested b (t :: ts)
  | parens {b : Bool} {opening closing : Token} {ts us : List Token}
      (hopening : opening.kind = .leftParen) (inside : Nested false ts)
      (hclosing : closing.kind = .rightParen) (others : Nested b us) :
      Nested b (opening :: ts ++ closing :: us)
  | braces {b : Bool} {opening closing : Token} {ts us : List Token}
      (hopening : opening.kind = .leftBrace) (inside : Nested true ts)
      (hclosing : closing.kind = .rightBrace) (others : Nested b us) :
      Nested b (opening :: ts ++ closing :: us)
  | header {keyword opening closing : Token} {ts us : List Token}
      (hkeyword : keyword.kind = .forWord) (hopening : opening.kind = .leftParen)
      (inside : Nested true ts) (hclosing : closing.kind = .rightParen) (others : Nested true us) :
      Nested true (keyword :: opening :: ts ++ closing :: us)

namespace Nested

variable {b : Bool} {ts us : List Token}

theorem balanced (h : Nested b ts) : Balanced ts := by
  induction h with
  | nil => rfl
  | plain ht _ _ ih => exact ih.plain ht
  | parens hopening _ hclosing _ ih ih' | braces hopening _ hclosing _ ih ih' =>
    exact .group (by rw [hopening]; rfl) ih (by rw [hclosing]; rfl) ih'
  | header hkeyword hopening _ hclosing _ ih ih' =>
    exact .plain (by rw [hkeyword]; rfl)
      (.group (by rw [hopening]; rfl) ih (by rw [hclosing]; rfl) ih')

theorem append (h : Nested b ts) (h' : Nested b us) : Nested b (ts ++ us) := by
  induction h with
  | nil => exact h'
  | plain ht hsemicolon _ ih => exact .plain ht hsemicolon (ih h')
  | parens hopening inside hclosing _ _ ih =>
    rw [List.append_assoc]
    exact .parens hopening inside hclosing (ih h')
  | braces hopening inside hclosing _ _ ih =>
    rw [List.append_assoc]
    exact .braces hopening inside hclosing (ih h')
  | header hkeyword hopening inside hclosing _ _ ih =>
    rw [List.append_assoc]
    exact .header hkeyword hopening inside hclosing (ih h')

theorem mono (h : Nested false ts) : Nested true ts := by
  generalize hb : false = b at h
  induction h with
  | nil => exact .nil
  | plain ht _ _ ih => exact .plain ht (fun _ => rfl) (ih hb)
  | parens hopening inside hclosing _ _ ih => exact .parens hopening inside hclosing (ih hb)
  | braces hopening inside hclosing _ _ ih => exact .braces hopening inside hclosing (ih hb)
  | header => cases hb

end Nested

/-- A semicolon in brackets, or behind them. -/
theorem split_group {ts us before behind : List Token} {t opening closing : Token}
    (h : opening :: ts ++ closing :: us = before ++ t :: behind) (ht : t.kind.isBracket = false)
    (hopening : opening.kind.isBracket = true) (hclosing : closing.kind.isBracket = true) :
    (∃ front left, before = opening :: front ∧ ts = front ++ t :: left) ∨
      ∃ front, before = opening :: ts ++ [closing] ++ front ∧ us = front ++ t :: behind := by
  have hne {u : Token} (hu : u.kind.isBracket = true) : u.kind ≠ t.kind := fun heq => by
    rw [heq, ht] at hu
    cases hu
  obtain ⟨front, rfl, hfront⟩ := split_cons h (hne hopening)
  rcases split_append hfront with ⟨left, hts, -⟩ | ⟨rest, rfl, hrest⟩
  · exact .inl ⟨front, left, rfl, hts⟩
  · obtain ⟨front, rfl, hus⟩ := split_cons hrest (hne hclosing)
    exact .inr ⟨front, by simp, hus⟩

/-- Nothing is open behind the tokens, and `semicolons` holds; or else a brace is the innermost
bracket that is open. -/
def OpensBraceUnless (semicolons : Bool) (ts : List Token) : Prop :=
  semicolons = true ∧ Balanced ts ∨ ∃ outside brace front,
    ts = outside ++ brace :: front ∧ brace.kind = .leftBrace ∧ Balanced front

theorem OpensBraceUnless.behind {b : Bool} {us : List Token} (h : OpensBraceUnless b us)
    {ts : List Token} (hts : Balanced ts) : OpensBraceUnless b (ts ++ us) := by
  rcases h with ⟨hb, hus⟩ | ⟨outside, brace, front, rfl, hbrace, hfront⟩
  · exact .inl ⟨hb, hts.append hus⟩
  · exact .inr ⟨ts ++ outside, brace, front, by simp, hbrace, hfront⟩

/-- Behind an opening bracket that is not closed, a brace is open. -/
theorem OpensBraceUnless.inside {b : Bool} {us : List Token} (h : OpensBraceUnless false us)
    (before : List Token) : OpensBraceUnless b (before ++ us) := by
  rcases h with ⟨hb, -⟩ | ⟨outside, brace, front, rfl, hbrace, hfront⟩
  · cases hb
  · exact .inr ⟨before ++ outside, brace, front, by simp, hbrace, hfront⟩

/-- Before a semicolon that is none of a header, no brackets are open, if there may be semicolons in
none, or a brace is the innermost one. -/
theorem Nested.split {b : Bool} {ts : List Token} (h : Nested b ts) {before behind : List Token}
    {t : Token} (hts : ts = before ++ t :: behind) (ht : t.kind = .semicolon)
    (hheader : ¬ EndsInHeader before) : OpensBraceUnless b before := by
  have hplain : t.kind.isBracket = false := by rw [ht]; rfl
  induction h generalizing before behind with
  | nil => simp at hts
  | @plain b u us hu hsemicolon _ ih =>
    cases before with
    | nil =>
      obtain ⟨rfl, -⟩ := List.cons.inj hts
      exact .inl ⟨hsemicolon ht, rfl⟩
    | cons v front =>
      obtain ⟨rfl, hus⟩ := List.cons.inj hts
      have hbalanced : Balanced [u] := .plain hu rfl
      exact (ih hus fun h => hheader (h.behind [u])).behind hbalanced
  | parens hopening inside hclosing _ ih ih' =>
    rcases split_group hts hplain (by rw [hopening]; rfl) (by rw [hclosing]; rfl) with
      ⟨front, left, rfl, hfront⟩ | ⟨front, rfl, hfront⟩
    · exact (ih hfront fun h => hheader (h.behind [_])).inside [_]
    · refine (ih' hfront fun h => hheader (h.behind _)).behind ?_
      exact .group (by rw [hopening]; rfl) inside.balanced (by rw [hclosing]; rfl) rfl
  | braces hopening inside hclosing _ ih ih' =>
    rcases split_group hts hplain (by rw [hopening]; rfl) (by rw [hclosing]; rfl) with
      ⟨front, left, rfl, hfront⟩ | ⟨front, rfl, hfront⟩
    · rcases ih hfront fun h => hheader (h.behind [_]) with ⟨-, hbalanced⟩ | hbrace
      · exact .inr ⟨[], _, front, rfl, hopening, hbalanced⟩
      · obtain ⟨outside, brace, inner, rfl, hbrace, hinner⟩ := hbrace
        exact .inr ⟨_ :: outside, brace, inner, rfl, hbrace, hinner⟩
    · refine (ih' hfront fun h => hheader (h.behind _)).behind ?_
      exact .group (by rw [hopening]; rfl) inside.balanced (by rw [hclosing]; rfl) rfl
  | @header keyword opening closing us _ hkeyword hopening inside hclosing _ ih ih' =>
    have hword : keyword.kind ≠ t.kind := by rw [hkeyword, ht]; decide
    obtain ⟨rest, rfl, hrest⟩ := split_cons hts hword
    rcases split_group hrest hplain (by rw [hopening]; rfl) (by rw [hclosing]; rfl) with
      ⟨front, left, rfl, hfront⟩ | ⟨front, rfl, hfront⟩
    · rcases ih hfront fun h => hheader (h.behind [keyword, opening]) with ⟨-, hbalanced⟩ | hbrace
      · exact absurd ⟨[], keyword, opening, front, rfl, hkeyword, hopening, hbalanced⟩ hheader
      · exact OpensBraceUnless.inside (.inr hbrace) [keyword, opening]
    · have hbalanced : Balanced (keyword :: (opening :: us ++ [closing])) :=
        .plain (by rw [hkeyword]; rfl)
          (.group (by rw [hopening]; rfl) inside.balanced (by rw [hclosing]; rfl) rfl)
      exact (ih' hfront fun h => hheader (h.behind (keyword :: _))).behind hbalanced

/-- A semicolon of tokens that may have one in braces only does not stand behind balanced ones. -/
theorem Nested.not_balanced {ts before behind : List Token} {t : Token} (h : Nested false ts)
    (hts : ts = before ++ t :: behind) (ht : t.kind = .semicolon) : ¬ Balanced before := by
  intro hbefore
  rcases h.split hts ht hbefore.not_endsInHeader with ⟨hb, -⟩ | ⟨_, _, _, rfl, hbrace, hinside⟩
  · cases hb
  · exact hinside.not_open (by rw [hbrace]; rfl) hbefore

/-- Behind such tokens and one more, a semicolon that stands behind balanced tokens is that one. -/
theorem Nested.split_last {ts before behind : List Token} {t closing : Token} (h : Nested false ts)
    (hts : ts ++ [closing] = before ++ t :: behind) (ht : t.kind = .semicolon)
    (hbefore : Balanced before) : before = ts ∧ behind = [] := by
  rcases split_append hts with ⟨left, hleft, -⟩ | ⟨front, rfl, hfront⟩
  · exact absurd hbefore (h.not_balanced hleft ht)
  · cases front with
    | nil => exact ⟨List.append_nil ts, (List.cons.inj hfront).2.symm⟩
    | cons u front => simp at hfront

/-- A semicolon of tokens that begin with brackets, where it stands behind balanced tokens, stands
behind these brackets. -/
theorem split_behind_group {ts us before behind : List Token} {t opening closing : Token}
    (h : opening :: ts ++ closing :: us = before ++ t :: behind) (ht : t.kind = .semicolon)
    (hopening : opening.kind.opensBracket = true) (hclosing : closing.kind.closesBracket = true)
    (hts : Balanced ts) (hbefore : Balanced before) : ∃ front,
      before = opening :: ts ++ [closing] ++ front ∧ us = front ++ t :: behind ∧
        Balanced front := by
  have hplain : t.kind.isBracket = false := by rw [ht]; rfl
  rcases split_group h hplain (by simp [Kind.isBracket, hopening])
      (by simp [Kind.isBracket, hclosing]) with ⟨front, left, rfl, rfl⟩ | ⟨front, rfl, hus⟩
  · obtain ⟨k, hk⟩ := hts.exists_depth
    have hnone : depthBehind 0 [] = some 0 := rfl
    exact absurd hbefore (not_balanced_of_opens hnone hopening hk)
  · refine ⟨front, rfl, hus, Balanced.of_append ?_ hbefore⟩
    exact .group hopening hts hclosing rfl

/-- The kinds that are neither brackets nor the semicolon. -/
def Kind.isInner (k : Kind) : Bool := !k.isBracket && k ≠ .semicolon

theorem Kind.isInner_iff {k : Kind} :
    k.isInner = true ↔ k.isBracket = false ∧ k ≠ .semicolon := by
  simp [isInner]

/-- Such a semicolon behind a word with parentheses stands behind these. -/
theorem split_behind_parens {ts us before behind : List Token} {t keyword opening closing : Token}
    (h : keyword :: opening :: ts ++ closing :: us = before ++ t :: behind)
    (ht : t.kind = .semicolon) (hkeyword : keyword.kind.isInner = true)
    (hopening : opening.kind = .leftParen) (hclosing : closing.kind = .rightParen)
    (hts : Balanced ts) (hbefore : Balanced before) : ∃ front,
      before = keyword :: opening :: ts ++ [closing] ++ front ∧ us = front ++ t :: behind ∧
        Balanced front := by
  obtain ⟨hplain, hword⟩ := Kind.isInner_iff.1 hkeyword
  obtain ⟨rest, rfl, hrest⟩ := split_cons h (by rwa [ht])
  obtain ⟨front, rfl, hus, hfront⟩ := split_behind_group hrest ht (by rw [hopening]; rfl)
    (by rw [hclosing]; rfl) hts (hbefore.of_plain hplain)
  exact ⟨front, rfl, hus, hfront⟩

/-! ## Constructs -/

theorem Nested.inner {b : Bool} {t : Token} {ts : List Token} (ht : t.kind.isInner = true)
    (others : Nested b ts) : Nested b (t :: ts) := by
  obtain ⟨hplain, hne⟩ := Kind.isInner_iff.1 ht
  exact .plain hplain (fun h => absurd h hne) others

theorem Nested.semicolon {t : Token} (ht : t.kind = .semicolon) : Nested true [t] :=
  .plain (by rw [ht]; rfl) (fun _ => rfl) .nil

/-- Operators of the levels are no brackets. -/
def InnerLevels (levels : List (Kind → Option Joint)) : Prop :=
  ∀ op? ∈ levels, ∀ k, (op? k).isSome = true → k.isInner = true

theorem innerLevels : InnerLevels Joint.levels := by
  intro op? hop k hk
  simp only [Joint.levels, List.mem_cons, List.not_mem_nil, or_false] at hop
  rcases hop with rfl | rfl | rfl | rfl | rfl | rfl <;>
    (cases k <;> first | rfl | exact absurd hk Bool.false_ne_true)

theorem CompoundOp.isInner {k : Kind} {op : CompoundOp} (h : ofKind? k = some op) :
    k.isInner = true := by
  cases k <;> first | rfl | cases h

theorem UnaryOp.isInner {k : Kind} {op : UnaryOp} (h : ofKind? k = some op) :
    k.isInner = true := by
  cases k <;> first | rfl | cases h

theorem Token.isInner_of_value? {t : Token} {value : Literal} (h : t.value? = some value) :
    t.kind.isInner = true := by
  unfold Token.value? at h
  split at h <;> simp_all [Kind.isInner, Kind.isBracket, Kind.opensBracket, Kind.closesBracket]

namespace Grammar

theorem Names.nested {ts names : List Token} (h : Names ts names) : Nested false ts := by
  induction h with
  | one hname => exact .inner (by rw [hname]; rfl) .nil
  | more hname hcomma _ ih => exact .inner (by rw [hname]; rfl) (.inner (by rw [hcomma]; rfl) ih)

theorem Parameters.nested {ts names : List Token} (h : Parameters ts names) : Nested false ts := by
  cases h with
  | none => exact .nil
  | some hnames _ => exact hnames.nested

mutual

theorem Expression.nested {d : Nat} {ts : List Token} {e : Expr} :
    Expression d ts e → Nested false ts
  | .nest _ inside => inside.nested

theorem Assignment.nested {d : Nat} {ts : List Token} {e : Expr} :
    Assignment d ts e → Nested false ts
  | .operand whole => whole.nested
  | .assign hname hmark _ right =>
    .inner (by rw [hname]; rfl) (.inner (by rw [hmark]; rfl) right.nested)

theorem Operand.nested {d : Nat} {ts : List Token} {e : Expr} : Operand d ts e → Nested false ts
  | .function hkeyword part => .inner (by rw [hkeyword]; rfl) part.nested
  | .compound whole => whole.nested

theorem Compound.nested {d : Nat} {ts : List Token} {e : Expr} : Compound d ts e → Nested false ts
  | .joined whole => whole.nested innerLevels
  | .combine hname hmark _ right =>
    .inner (by rw [hname]; rfl) (.inner (CompoundOp.isInner hmark) right.nested)

theorem Joined.nested {levels : List (Kind → Option Joint)} {d : Nat} {ts : List Token}
    {e : Expr} : Joined levels d ts e → InnerLevels levels → Nested false ts
  | .unary whole, _ => whole.nested
  | .tighter whole, hlevels => whole.nested fun _ hop => hlevels _ (List.mem_cons_of_mem _ hop)
  | .join left hmark right, hlevels =>
    have hkind := hlevels _ List.mem_cons_self _ (by rw [hmark]; rfl)
    (left.nested hlevels).append
      (.inner hkind (right.nested fun _ hop => hlevels _ (List.mem_cons_of_mem _ hop)))

theorem Unary.nested {d : Nat} {ts : List Token} {e : Expr} : Unary d ts e → Nested false ts
  | .operator hmark _ operand => .inner (UnaryOp.isInner hmark) operand.nested
  | .call whole => whole.nested

theorem Call.nested {d : Nat} {ts : List Token} {e : Expr} : Call d ts e → Nested false ts
  | .primary whole => whole.nested
  | .call left hopening right hclosing => by
    rw [List.append_assoc]
    exact left.nested.append (.parens hopening right.nested hclosing .nil)

theorem Arguments.nested {d : Nat} {ts : List Token} {arguments : List Expr} :
    Arguments d ts arguments → Nested false ts
  | .none => .nil
  | .some values _ => values.nested

theorem Values.nested {d : Nat} {ts : List Token} {es : List Expr} :
    Values d ts es → Nested false ts
  | .one value => value.nested
  | .more value hcomma rest => value.nested.append (.inner (by rw [hcomma]; rfl) rest.nested)

theorem Primary.nested {d : Nat} {ts : List Token} {e : Expr} : Primary d ts e → Nested false ts
  | .literal hvalue => .inner (Token.isInner_of_value? hvalue) .nil
  | .name hname => .inner (by rw [hname]; rfl) .nil
  | .group hopening inside hclosing => .parens hopening inside.nested hclosing .nil

theorem FunctionRest.nested {d : Nat} {ts parameters : List Token} {body : List Stmt}
    {last : Token} {b : Bool} : FunctionRest d ts parameters body last → Nested b ts
  | .mk hopening names hclosing hbrace rest =>
    .parens hopening names.nested hclosing (rest.nested hbrace)

/-- The declarations of a block lie between its braces. -/
theorem BlockRest.nested {d : Nat} {ts : List Token} {body : List Stmt} {closing brace : Token}
    {b : Bool} : BlockRest d ts body closing → brace.kind = .leftBrace → Nested b (brace :: ts)
  | .mk inside hclosing, hbrace => .braces hbrace inside.nested hclosing .nil

theorem Declarations.nested {d : Nat} {ts : List Token} {body : List Stmt} :
    Declarations d ts body → Nested true ts
  | .nil => .nil
  | .cons first others => first.nested.append others.nested

theorem Declaration.nested {d : Nat} {ts : List Token} {s : Stmt} :
    Declaration d ts s → Nested true ts
  | .function hkeyword hname part =>
    .inner (by rw [hkeyword]; rfl) (.inner (by rw [hname]; rfl) part.nested)
  | .define hkeyword rest => .inner (by rw [hkeyword]; rfl) rest.nested
  | .statement whole => whole.nested

theorem LetRest.nested {d : Nat} {keyword : Token} {ts : List Token} {s : Stmt} :
    LetRest d keyword ts s → Nested true ts
  | .bare hname hclosing => .inner (by rw [hname]; rfl) (.semicolon hclosing)
  | .initial hname hmark value hclosing =>
    .inner (by rw [hname]; rfl)
      (.inner (by rw [hmark]; rfl) (value.nested.mono.append (.semicolon hclosing)))

theorem ExpressionStatement.nested {d : Nat} {ts : List Token} {s : Stmt} :
    ExpressionStatement d ts s → Nested true ts
  | .mk value hclosing => value.nested.mono.append (.semicolon hclosing)

theorem Statement.nested {dangling : Bool} {d : Nat} {ts : List Token} {s : Stmt} :
    Statement dangling d ts s → Nested true ts
  | .nest _ inside => inside.nested

theorem StatementForm.nested {dangling : Bool} {d : Nat} {ts : List Token} {s : Stmt} :
    StatementForm dangling d ts s → Nested true ts
  | .forLoop hkeyword hopening first second hmiddle third hclosing inside => by
    have hclauses := first.nested.append (second.nested.mono.append
      ((Nested.semicolon hmiddle).append third.nested.mono))
    have hwhole := Nested.header hkeyword hopening hclauses hclosing inside.nested
    simpa using hwhole
  | .branch hkeyword hopening test hclosing first =>
    .inner (by rw [hkeyword]; rfl) (.parens hopening test.nested hclosing first.nested)
  | .branchElse hkeyword hopening test hclosing first hmiddle second => by
    have hwhole := Nested.inner (by rw [hkeyword]; rfl) (.parens hopening test.nested hclosing
      (first.nested.append (.inner (by rw [hmiddle]; rfl) second.nested)))
    simpa using hwhole
  | .leave hkeyword result hclosing =>
    .inner (by rw [hkeyword]; rfl) (result.nested.mono.append (.semicolon hclosing))
  | .loop hkeyword hopening test hclosing inside =>
    .inner (by rw [hkeyword]; rfl) (.parens hopening test.nested hclosing inside.nested)
  | .breakLoop hkeyword hclosing | .continueLoop hkeyword hclosing =>
    .inner (by rw [hkeyword]; rfl) (.semicolon hclosing)
  | .block hbrace rest => rest.nested hbrace
  | .expression whole => whole.nested

theorem InitialClause.nested {d : Nat} {ts : List Token} {initial : Option Stmt} :
    InitialClause d ts initial → Nested true ts
  | .none hclosing => .semicolon hclosing
  | .define hkeyword rest => .inner (by rw [hkeyword]; rfl) rest.nested
  | .expression whole => whole.nested

theorem Clause.nested {d : Nat} {ts : List Token} {value : Option Expr} :
    Clause d ts value → Nested false ts
  | .none => .nil
  | .some value => value.nested

end

end Grammar

end Scripting
