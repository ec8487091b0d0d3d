import Scripting.Proofs.Grammar.First
import Scripting.Proofs.Rename.Basic

/-!
# Derivations with a name replaced in a function

* `FunctionText.At` : tokens of a function, behind those before it;
* `Renaming.Fits` : functions in which a name may be replaced;
* `Carries` : what comes of replacing tokens, everywhere or in one function only (`token`, `append`,
  `function`);
* `Grammar.Declarations.carries` and the like : the tokens that stand in the places of those of a
  tree write a tree that is the same but for spans and names replaced.

A derivation carries what its parts carry. So the function in which tokens are replaced is looked
for once, where functions are made, and nowhere else.
-/

namespace Scripting

set_option autoImplicit false

/-! ## Tokens of a function -/

/-- The tokens `own` are those of the range of the function, and `before` are those before them. -/
structure FunctionText.At (F : FunctionText) (before own : List Token) : Prop where
  start : ∃ first, before.getLast? = some first ∧ (F.range.start = first.span.stop ∨
    F.range.start = first.span.start ∧ first.kind ≠ .identifier)
  stop : ∃ last, own.getLast? = some last ∧ F.range.stop = last.span.stop

theorem FunctionText.At.behind {F : FunctionText} {before own : List Token} (h : F.At before own)
    (ts : List Token) : F.At (ts ++ before) own where
  start := by
    obtain ⟨first, hfirst, hstart⟩ := h.start
    exact ⟨first, by rw [List.getLast?_append, hfirst, Option.some_or], hstart⟩
  stop := h.stop

namespace Renaming

variable (r : Renaming)

/-- No function inside has the name. -/
def Spares (inside : Bool) (fs : List FunctionText) : Prop :=
  inside = true → ∀ F ∈ fs, F.name ≠ some r.old

/-- The name is one of a parameter of the function, and not one of a function in its body. -/
structure Fits (F : FunctionText) : Prop where
  parameter : r.old ∈ F.parameters.map Token.lexeme
  unnamed : ∀ G ∈ Stmt.functionsOfAll F.body, G.name ≠ some r.old

end Renaming

/-! ## Tokens in the places of others -/

variable {r : Renaming}

/-- What comes of putting `φ t` in the place of each token `t`, where `fs` are the functions that
the tokens `ts` make: `Q φ inside` if all of them are inside or all are around, and `Q φ false` if
those of one function are inside and the others around. -/
structure Carries (r : Renaming) (ts : List Token) (fs : List FunctionText)
    (Q : (Token → Token) → Bool → Prop) : Prop where
  even : ∀ φ inside, (∀ t ∈ ts, r.Writes inside t (φ t)) → r.Spares inside fs → Q φ inside
  within : ∀ F ∈ fs, r.Fits F → ∃ before own behind, ts = before ++ own ++ behind ∧
    F.At before own ∧ ∀ φ, (∀ t ∈ before, r.Writes false t (φ t)) →
      (∀ t ∈ own, r.Writes true t (φ t)) → (∀ t ∈ behind, r.Writes false t (φ t)) → Q φ false

namespace Carries

variable {ts us : List Token} {fs gs : List FunctionText}
  {Q P : (Token → Token) → Bool → Prop}

/-- Tokens that make no function. -/
theorem tokens (ts : List Token) :
    Carries r ts [] (fun φ inside => ∀ t ∈ ts, r.Writes inside t (φ t)) where
  even _ _ h _ := h
  within _ h := by cases h

theorem token (t : Token) : Carries r [t] [] (fun φ inside => r.Writes inside t (φ t)) where
  even _ _ h _ := h t List.mem_cons_self
  within _ h := by cases h

theorem imp (h : Carries r ts fs Q) (hQ : ∀ φ inside, Q φ inside → P φ inside) :
    Carries r ts fs P where
  even φ inside hts hfs := hQ φ inside (h.even φ inside hts hfs)
  within F hF fits := by
    obtain ⟨before, own, behind, hsplit, hat, hφ⟩ := h.within F hF fits
    exact ⟨before, own, behind, hsplit, hat, fun φ hbefore hown hbehind =>
      hQ φ false (hφ φ hbefore hown hbehind)⟩

/-- The order of the functions is of no matter. -/
theorem congr (h : Carries r ts fs Q) (hfs : ∀ F, F ∈ gs ↔ F ∈ fs) : Carries r ts gs Q where
  even φ inside hts hgs :=
    h.even φ inside hts fun hinside F hF => hgs hinside F ((hfs F).2 hF)
  within F hF := h.within F ((hfs F).1 hF)

theorem append (h : Carries r ts fs Q) (h' : Carries r us gs P) :
    Carries r (ts ++ us) (fs ++ gs) (fun φ inside => Q φ inside ∧ P φ inside) where
  even φ inside hall hspares := by
    rw [List.forall_mem_append] at hall
    constructor
    · refine h.even φ inside hall.1 fun hinside F hF => ?_
      exact hspares hinside F (List.mem_append_left _ hF)
    · refine h'.even φ inside hall.2 fun hinside F hF => ?_
      exact hspares hinside F (List.mem_append_right _ hF)
  within F hF fits := by
    rcases List.mem_append.1 hF with hF | hF
    · obtain ⟨before, own, behind, rfl, hat, hφ⟩ := h.within F hF fits
      refine ⟨before, own, behind ++ us, by simp only [List.append_assoc], hat, ?_⟩
      intro φ hbefore hown hrest
      rw [List.forall_mem_append] at hrest
      exact ⟨hφ φ hbefore hown hrest.1, h'.even φ false hrest.2 nofun⟩
    · obtain ⟨before, own, behind, rfl, hat, hφ⟩ := h'.within F hF fits
      refine ⟨ts ++ before, own, behind, by simp only [List.append_assoc], hat.behind ts, ?_⟩
      intro φ hrest hown hbehind
      rw [List.forall_mem_append] at hrest
      exact ⟨h.even φ false hrest.1 nofun, hφ φ hrest.2 hown hbehind⟩

/-- The token before a function, and the tokens of its parameters and its body. -/
theorem function {F : FunctionText} {first last : Token}
    (hstart : F.range.start = first.span.stop ∨
      F.range.start = first.span.start ∧ first.kind ≠ .identifier)
    (hlast : ts.getLast? = some last) (hstop : F.range.stop = last.span.stop)
    (h : Carries r ts (Stmt.functionsOfAll F.body) Q) :
    Carries r (first :: ts) (F :: Stmt.functionsOfAll F.body) (fun φ inside =>
      r.Writes inside first (φ first) ∧ (inside = true → F.name ≠ some r.old) ∧
        ∃ inner, r.Enters inside inner F.parameters ∧ Q φ inner) where
  even φ inside hall hspares := by
    rw [List.forall_mem_cons] at hall
    refine ⟨hall.1, fun hinside => hspares hinside F List.mem_cons_self, inside, .inl rfl, ?_⟩
    exact h.even φ inside hall.2 fun hinside G hG => hspares hinside G (List.mem_cons_of_mem _ hG)
  within G hG fits := by
    rcases List.mem_cons.1 hG with rfl | hG
    · refine ⟨[first], ts, [], by simp, ⟨⟨first, rfl, hstart⟩, last, hlast, hstop⟩, ?_⟩
      intro φ hfirst hown _
      refine ⟨hfirst first List.mem_cons_self, nofun, true, .inr ⟨rfl, fits.parameter⟩, ?_⟩
      exact h.even φ true hown fun _ => fits.unnamed
    · obtain ⟨before, own, behind, rfl, hat, hφ⟩ := h.within G hG fits
      refine ⟨first :: before, own, behind, rfl, hat.behind [first], ?_⟩
      intro φ hrest hown hbehind
      rw [List.forall_mem_cons] at hrest
      exact ⟨hrest.1, nofun, false, .inl rfl, hφ φ hrest.2 hown hbehind⟩

end Carries

/-- The tokens in the places of `ts` write, as `X` says, a tree that `Rel` says is the same but for
spans and names replaced. -/
def Rewritten {α : Type} (X : List Token → α → Prop) (Rel : Bool → α → α → Prop)
    (ts : List Token) (a : α) (φ : Token → Token) (inside : Bool) : Prop :=
  ∃ us a', ts.map φ = us ∧ X us a' ∧ Rel inside a a'

/-- What writes a tree as `X` says may write it as `Y` says. -/
theorem Carries.lift {α : Type} {X Y : List Token → α → Prop} {Rel : Bool → α → α → Prop}
    {ts : List Token} {fs : List FunctionText} {a : α}
    (h : Carries r ts fs (Rewritten X Rel ts a)) (hY : ∀ us a', X us a' → Y us a') :
    Carries r ts fs (Rewritten Y Rel ts a) := by
  refine h.imp ?_
  rintro φ inside ⟨us, a', hus, ha, hr⟩
  exact ⟨us, a', hus, hY us a' ha, hr⟩

/-! ## Operators and literals -/

theorem Renaming.Writes.value? {inside : Bool} {t t' : Token} (h : r.Writes inside t t') :
    t'.value? = t.value? := by
  unfold Token.value?
  rw [h.kind, h.literal]

/-- What stands for an operator is no name. -/
theorem Renaming.Writes.operator {ω : Type} {op? : Kind → Option ω} {op : ω} {inside : Bool}
    {t t' : Token} (h : r.Writes inside t t') (ht : op? t.kind = some op)
    (hname : op? .identifier = none) : t.Keeps t' := by
  refine h.keeps fun hkind => ?_
  rw [hkind, hname] at ht
  cases ht

theorem Joint.levels_identifier : ∀ op? ∈ Joint.levels, op? .identifier = none := by
  simp [Joint.levels, Joint.or?, Joint.and?, Joint.equality?, Joint.comparison?, Joint.term?,
    Joint.factor?]

theorem Joint.join_renames {inside : Bool} {joint : Joint} {mark mark' : Token}
    {left left' right right' : Expr} (hmark : mark.Keeps mark')
    (hleft : left.Renames r inside left') (hright : right.Renames r inside right') :
    (joint.join mark left right).Renames r inside (joint.join mark' left' right') := by
  cases joint with
  | binary => exact .binary hmark hleft hright
  | logical => exact .logical hleft hright

theorem Joint.functions_join (joint : Joint) (mark : Token) (left right : Expr) :
    (joint.join mark left right).functions = left.functions ++ right.functions := by
  cases joint <;> rfl

namespace Grammar

/-! ## Names -/

theorem Names.rewritten {ts names : List Token} (h : Names ts names) {φ : Token → Token}
    {inside : Bool} (hts : ∀ t ∈ ts, r.Writes inside t (φ t)) :
    Names (ts.map φ) (names.map φ) ∧ List.Forall₂ (r.Names inside) names (names.map φ) := by
  induction h with
  | one hname =>
    have ht := hts _ List.mem_cons_self
    exact ⟨.one (ht.kind.trans hname), .cons (ht.names hname) .nil⟩
  | more hname hcomma _ ih =>
    rw [List.forall_mem_cons, List.forall_mem_cons] at hts
    obtain ⟨hrest, hnames⟩ := ih hts.2.2
    exact ⟨.more (hts.1.kind.trans hname) (hts.2.1.kind.trans hcomma) hrest,
      .cons (hts.1.names hname) hnames⟩

theorem Parameters.rewritten {ts names : List Token} (h : Parameters ts names)
    {φ : Token → Token} {inside : Bool} (hts : ∀ t ∈ ts, r.Writes inside t (φ t)) :
    Parameters (ts.map φ) (names.map φ) ∧ List.Forall₂ (r.Names inside) names (names.map φ) := by
  cases h with
  | none => exact ⟨.none, .nil⟩
  | some names_ few =>
    obtain ⟨h, hnames⟩ := names_.rewritten hts
    exact ⟨.some h (by rwa [List.length_map]), hnames⟩

/-! ## Derivations -/

mutual

theorem Expression.carries {d : Nat} {ts : List Token} {e : Expr} :
    Expression d ts e →
      Carries r ts e.functions (Rewritten (Expression d) (Expr.Renames r) ts e)
  | .nest room inside => inside.carries.lift fun _ _ => .nest room

theorem Assignment.carries {d : Nat} {ts : List Token} {e : Expr} :
    Assignment d ts e →
      Carries r ts e.functions (Rewritten (Assignment d) (Expr.Renames r) ts e)
  | .operand whole => whole.carries.lift fun _ _ => .operand
  | @Assignment.assign _ name mark _ _ hname hmark room right => by
    refine ((Carries.token name).append ((Carries.token mark).append right.carries)).imp ?_
    rintro φ i ⟨ht, hu, _, value', rfl, hvalue, hr⟩
    exact ⟨_, _, rfl, .assign (ht.kind.trans hname) (hu.kind.trans hmark) room hvalue,
      .assign (ht.names hname) hr⟩

theorem Operand.carries {d : Nat} {ts : List Token} {e : Expr} :
    Operand d ts e → Carries r ts e.functions (Rewritten (Operand d) (Expr.Renames r) ts e)
  | @Operand.function _ keyword closing _ parameters body hkeyword part => by
    refine (Carries.function (F := ⟨keyword.span.through closing.span, none, parameters, body⟩)
      (.inr ⟨rfl, by rw [hkeyword]; decide⟩) part.getLast? rfl part.carries).imp ?_
    rintro φ i ⟨ht, -, inner, enters, _, parameters', body', rfl, hpart, hparameters, hbody⟩
    exact ⟨_, _, rfl, .function (ht.kind.trans hkeyword) hpart,
      .function enters hparameters hbody⟩
  | .compound whole => whole.carries.lift fun _ _ => .compound

theorem Compound.carries {d : Nat} {ts : List Token} {e : Expr} :
    Compound d ts e → Carries r ts e.functions (Rewritten (Compound d) (Expr.Renames r) ts e)
  | .joined whole => (whole.carries Joint.levels_identifier).lift fun _ _ => .joined
  | @Compound.combine _ name mark op _ _ hname hmark room right => by
    refine ((Carries.token name).append ((Carries.token mark).append right.carries)).imp ?_
    rintro φ i ⟨ht, hu, _, value', rfl, hvalue, hr⟩
    exact ⟨_, _, rfl, .combine (ht.kind.trans hname) (by rwa [hu.kind]) room hvalue,
      .assign (ht.names hname)
        (.binary ((hu.operator hmark rfl).standIn _ _) (.read (ht.names hname)) hr)⟩

theorem Joined.carries {levels : List (Kind → Option Joint)} {d : Nat} {ts : List Token} {e : Expr}
    (hlevels : ∀ op? ∈ levels, op? .identifier = none) : Joined levels d ts e →
      Carries r ts e.functions (Rewritten (Joined levels d) (Expr.Renames r) ts e)
  | .unary whole => whole.carries.lift fun _ _ => .unary
  | .tighter whole => (whole.carries (List.forall_mem_cons.1 hlevels).2).lift fun _ _ => .tighter
  | @Joined.join op? levels _ ts us mark joint l r' left hmark right => by
    have hrest := (List.forall_mem_cons.1 hlevels).2
    have h := (left.carries hlevels).append ((Carries.token mark).append (right.carries hrest))
    rw [Joint.functions_join]
    refine h.imp ?_
    rintro φ i ⟨⟨_, l', rfl, hl, hrl⟩, ht, _, r'', rfl, hright, hrr⟩
    exact ⟨_, _, by simp, .join hl (by rwa [ht.kind]) hright,
      Joint.join_renames (ht.operator hmark (hlevels op? List.mem_cons_self)) hrl hrr⟩

theorem Unary.carries {d : Nat} {ts : List Token} {e : Expr} :
    Unary d ts e → Carries r ts e.functions (Rewritten (Unary d) (Expr.Renames r) ts e)
  | @Unary.operator _ mark op _ _ hmark room operand => by
    refine ((Carries.token mark).append operand.carries).imp ?_
    rintro φ i ⟨ht, _, e', rfl, he, hr⟩
    exact ⟨_, _, rfl, .operator (by rwa [ht.kind]) room he, .unary (ht.operator hmark rfl) hr⟩
  | .call whole => whole.carries.lift fun _ _ => .call

theorem Call.carries {d : Nat} {ts : List Token} {e : Expr} :
    Call d ts e → Carries r ts e.functions (Rewritten (Call d) (Expr.Renames r) ts e)
  | .primary whole => whole.carries.lift fun _ _ => .primary
  | @Call.call _ _ _ opening closing _ _ left hopening right hclosing => by
    have h := (left.carries.append ((Carries.token opening).append right.carries)).append
      (Carries.token closing)
    refine (h.congr (by simp [Expr.functions])).imp ?_
    rintro φ i ⟨⟨⟨_, callee', rfl, hcallee, hr⟩, ht, _, es', rfl, hes, hrs⟩, hu⟩
    exact ⟨_, _, by simp, .call hcallee (ht.kind.trans hopening) hes (hu.kind.trans hclosing),
      .call (hu.keeps (by simp [hclosing])) hr hrs⟩

theorem Arguments.carries {d : Nat} {ts : List Token} {arguments : List Expr} :
    Arguments d ts arguments → Carries r ts (Expr.functionsOfAll arguments)
      (Rewritten (Arguments d) (Expr.RenamesAll r) ts arguments)
  | .none => (Carries.tokens []).imp fun _ _ _ => ⟨_, _, rfl, .none, .nil⟩
  | .some values few => by
    refine values.carries.imp fun φ i h => ?_
    obtain ⟨us, es', hus, hes, hr⟩ := h
    exact ⟨us, es', hus, .some hes (hr.length_eq ▸ few), hr⟩

theorem Values.carries {d : Nat} {ts : List Token} {es : List Expr} :
    Values d ts es → Carries r ts (Expr.functionsOfAll es)
      (Rewritten (Values d) (Expr.RenamesAll r) ts es)
  | .one value => by
    refine (value.carries.congr (by simp [Expr.functionsOfAll])).imp ?_
    rintro φ i ⟨us, e', hus, he, hr⟩
    exact ⟨us, _, hus, .one he, .cons hr .nil⟩
  | @Values.more _ _ _ comma _ _ value hcomma rest => by
    refine (value.carries.append ((Carries.token comma).append rest.carries)).imp ?_
    rintro φ i ⟨⟨_, e', rfl, he, hr⟩, ht, _, es', rfl, hes, hrs⟩
    exact ⟨_, _, by simp, .more he (ht.kind.trans hcomma) hes, .cons hr hrs⟩

theorem Primary.carries {d : Nat} {ts : List Token} {e : Expr} :
    Primary d ts e → Carries r ts e.functions (Rewritten (Primary d) (Expr.Renames r) ts e)
  | @Primary.literal _ t _ hvalue => (Carries.token t).imp fun _ _ ht =>
    ⟨_, _, rfl, .literal (ht.value?.trans hvalue), .literal⟩
  | @Primary.name _ t hname => (Carries.token t).imp fun _ _ ht =>
    ⟨_, _, rfl, .name (ht.kind.trans hname), .read (ht.names hname)⟩
  | @Primary.group _ opening closing _ _ hopening inside hclosing => by
    have h := ((Carries.token opening).append inside.carries).append (Carries.token closing)
    refine (h.congr (by simp [Expr.functions])).imp ?_
    rintro φ i ⟨⟨ht, _, e', rfl, he, hr⟩, hu⟩
    exact ⟨_, _, by simp, .group (ht.kind.trans hopening) he (hu.kind.trans hclosing), .group hr⟩

theorem FunctionRest.carries {d : Nat} {ts parameters : List Token} {body : List Stmt}
    {last : Token} : FunctionRest d ts parameters body last →
      Carries r ts (Stmt.functionsOfAll body) (fun φ inside => ∃ us parameters' body',
        ts.map φ = us ∧ FunctionRest d us parameters' body' (φ last) ∧
          List.Forall₂ (r.Names inside) parameters parameters' ∧
          Stmt.RenamesAll r inside body body')
  | @FunctionRest.mk _ opening closing brace _ ts _ _ _ hopening names hclosing hbrace rest => by
    have h := ((Carries.token opening).append (Carries.tokens ts)).append
      ((Carries.token closing).append ((Carries.token brace).append rest.carries))
    refine h.imp ?_
    rintro φ i ⟨⟨ht, hts⟩, hu, hv, _, body', rfl, hbody, hr⟩
    obtain ⟨hnames, hparameters⟩ := names.rewritten hts
    exact ⟨_, _, _, by simp, .mk (ht.kind.trans hopening) hnames (hu.kind.trans hclosing)
      (hv.kind.trans hbrace) hbody, hparameters, hr⟩

theorem BlockRest.carries {d : Nat} {ts : List Token} {body : List Stmt} {closing : Token} :
    BlockRest d ts body closing → Carries r ts (Stmt.functionsOfAll body) (fun φ inside =>
      Rewritten (fun us body' => BlockRest d us body' (φ closing)) (Stmt.RenamesAll r) ts body φ
        inside)
  | @BlockRest.mk _ _ _ closing inside hclosing => by
    refine ((inside.carries.append (Carries.token closing)).congr (by simp)).imp ?_
    rintro φ i ⟨⟨_, body', rfl, hbody, hr⟩, ht⟩
    exact ⟨_, _, by simp, .mk hbody (ht.kind.trans hclosing), hr⟩

theorem Declarations.carries {d : Nat} {ts : List Token} {body : List Stmt} :
    Declarations d ts body → Carries r ts (Stmt.functionsOfAll body)
      (Rewritten (Declarations d) (Stmt.RenamesAll r) ts body)
  | .nil => (Carries.tokens []).imp fun _ _ _ => ⟨_, _, rfl, .nil, .nil⟩
  | .cons first others => by
    refine (first.carries.append others.carries).imp ?_
    rintro φ i ⟨⟨_, s', rfl, hs, hr⟩, _, rest', rfl, hrest, hrs⟩
    exact ⟨_, _, by simp, .cons hs hrest, .cons hr hrs⟩

theorem Declaration.carries {d : Nat} {ts : List Token} {s : Stmt} :
    Declaration d ts s →
      Carries r ts s.functions (Rewritten (Declaration d) (Stmt.Renames r) ts s)
  | @Declaration.function _ keyword name closing _ parameters body hkeyword hname part => by
    have h := Carries.function
      (F := ⟨⟨name.span.stop, closing.span.stop⟩, some name.lexeme, parameters, body⟩)
      (.inl rfl) part.getLast? rfl part.carries
    refine ((Carries.token keyword).append h).imp ?_
    rintro φ i ⟨ht, hu, kept, inner, enters, _, parameters', body', rfl, hpart, hparameters, hbody⟩
    exact ⟨_, _, rfl, .function (ht.kind.trans hkeyword) (hu.kind.trans hname) hpart,
      .function (hu.names hname) (fun hi heq => kept hi (congrArg some heq)) enters hparameters
        hbody⟩
  | @Declaration.define _ keyword _ _ hkeyword rest => by
    refine ((Carries.token keyword).append rest.carries).imp ?_
    rintro φ i ⟨ht, h⟩
    obtain ⟨_, s', rfl, hs, hr⟩ := h (φ keyword)
    exact ⟨_, _, rfl, .define (ht.kind.trans hkeyword) hs, hr⟩
  | .statement whole => whole.carries.lift fun _ _ => .statement

/-- The span of the statement begins at the word before it, whatever that is. -/
theorem LetRest.carries {d : Nat} {keyword : Token} {ts : List Token} {s : Stmt} :
    LetRest d keyword ts s → Carries r ts s.functions (fun φ inside => ∀ keyword' : Token,
      Rewritten (LetRest d keyword') (Stmt.Renames r) ts s φ inside)
  | @LetRest.bare _ keyword name closing hname hclosing => by
    refine ((Carries.token name).append (Carries.token closing)).imp ?_
    rintro φ i ⟨ht, hu⟩ keyword'
    exact ⟨_, _, rfl, .bare (ht.kind.trans hname) (hu.kind.trans hclosing),
      .define (ht.names hname) .none⟩
  | @LetRest.initial _ keyword name mark closing _ _ hname hmark value hclosing => by
    have h := ((Carries.token name).append ((Carries.token mark).append value.carries)).append
      (Carries.token closing)
    refine (h.congr (by simp [Stmt.functions, Expr.functionsOfOption])).imp ?_
    rintro φ i ⟨⟨ht, hu, _, e', rfl, he, hr⟩, hv⟩ keyword'
    exact ⟨_, _, by simp, .initial (ht.kind.trans hname) (hu.kind.trans hmark) he
      (hv.kind.trans hclosing), .define (ht.names hname) (.some hr)⟩

theorem ExpressionStatement.carries {d : Nat} {ts : List Token} {s : Stmt} :
    ExpressionStatement d ts s →
      Carries r ts s.functions (Rewritten (ExpressionStatement d) (Stmt.Renames r) ts s)
  | @ExpressionStatement.mk _ _ _ closing value hclosing => by
    have h := value.carries.append (Carries.token closing)
    refine (h.congr (by simp [Stmt.functions])).imp ?_
    rintro φ i ⟨⟨_, e', rfl, he, hr⟩, ht⟩
    exact ⟨_, _, by simp, .mk he (ht.kind.trans hclosing), .expression hr⟩

theorem Statement.carries {dangling : Bool} {d : Nat} {ts : List Token} {s : Stmt} :
    Statement dangling d ts s →
      Carries r ts s.functions (Rewritten (Statement dangling d) (Stmt.Renames r) ts s)
  | .nest room inside => inside.carries.lift fun _ _ => .nest room

theorem StatementForm.carries {dangling : Bool} {d : Nat} {ts : List Token} {s : Stmt} :
    StatementForm dangling d ts s →
      Carries r ts s.functions (Rewritten (StatementForm dangling d) (Stmt.Renames r) ts s)
  | @StatementForm.forLoop _ _ keyword opening middle closing _ _ _ _ _ _ _ _ hkeyword hopening
      first second hmiddle third hclosing inside => by
    have h := ((((Carries.token keyword).append ((Carries.token opening).append
      first.carries)).append second.carries).append
      ((Carries.token middle).append third.carries)).append
      ((Carries.token closing).append inside.carries)
    refine (h.congr fun F => by rw [Stmt.mem_functions_forLoop]; simp).imp ?_
    rintro φ i ⟨⟨⟨⟨ht, hu, _, initial', rfl, hinitial, hr₁⟩, _, condition', rfl, hcondition, hr₂⟩,
      hv, _, step', rfl, hstep, hr₃⟩, hw, _, body', rfl, hbody, hr₄⟩
    exact ⟨_, _, by simp, .forLoop (ht.kind.trans hkeyword) (hu.kind.trans hopening) hinitial
      hcondition (hv.kind.trans hmiddle) hstep (hw.kind.trans hclosing) hbody,
      .forLoop hr₁ hr₂ hr₃ hr₄⟩
  | @StatementForm.branch _ _ keyword opening closing _ _ _ _ hkeyword hopening test hclosing
      first => by
    have h := ((Carries.token keyword).append ((Carries.token opening).append
      test.carries)).append ((Carries.token closing).append first.carries)
    refine (h.congr (by simp [Stmt.functions, Stmt.functionsOfOption])).imp ?_
    rintro φ i ⟨⟨ht, hu, _, condition', rfl, hcondition, hr₁⟩, hv, _, body', rfl, hbody, hr₂⟩
    exact ⟨_, _, by simp, .branch (ht.kind.trans hkeyword) (hu.kind.trans hopening) hcondition
      (hv.kind.trans hclosing) hbody, .branch hr₁ hr₂ .none⟩
  | @StatementForm.branchElse _ _ keyword opening closing middle _ _ _ _ _ _ hkeyword hopening test
      hclosing first hmiddle second => by
    have h := (((Carries.token keyword).append ((Carries.token opening).append
      test.carries)).append ((Carries.token closing).append first.carries)).append
      ((Carries.token middle).append second.carries)
    refine (h.congr (by simp [Stmt.functions, Stmt.functionsOfOption])).imp ?_
    rintro φ i ⟨⟨⟨ht, hu, _, condition', rfl, hcondition, hr₁⟩, hv, _, whenTrue', rfl, hwhenTrue,
      hr₂⟩, hw, _, whenFalse', rfl, hwhenFalse, hr₃⟩
    exact ⟨_, _, by simp, .branchElse (ht.kind.trans hkeyword) (hu.kind.trans hopening) hcondition
      (hv.kind.trans hclosing) hwhenTrue (hw.kind.trans hmiddle) hwhenFalse,
      .branch hr₁ hr₂ (.some hr₃)⟩
  | @StatementForm.leave _ keyword closing _ _ hkeyword result hclosing => by
    have h := ((Carries.token keyword).append result.carries).append (Carries.token closing)
    refine (h.congr (by simp [Stmt.functions])).imp ?_
    rintro φ i ⟨⟨ht, _, value', rfl, hvalue, hr⟩, hu⟩
    exact ⟨_, _, by simp, .leave (ht.kind.trans hkeyword) hvalue (hu.kind.trans hclosing),
      .leave (ht.keeps (by simp [hkeyword])) hr⟩
  | @StatementForm.loop _ _ keyword opening closing _ _ _ _ hkeyword hopening test hclosing
      inside => by
    have h := ((Carries.token keyword).append ((Carries.token opening).append
      test.carries)).append ((Carries.token closing).append inside.carries)
    refine h.imp ?_
    rintro φ i ⟨⟨ht, hu, _, condition', rfl, hcondition, hr₁⟩, hv, _, body', rfl, hbody, hr₂⟩
    exact ⟨_, _, by simp, .loop (ht.kind.trans hkeyword) (hu.kind.trans hopening) hcondition
      (hv.kind.trans hclosing) hbody, .loop hr₁ hr₂⟩
  | @StatementForm.breakLoop _ keyword closing hkeyword hclosing => by
    refine ((Carries.token keyword).append (Carries.token closing)).imp ?_
    rintro φ i ⟨ht, hu⟩
    exact ⟨_, _, rfl, .breakLoop (ht.kind.trans hkeyword) (hu.kind.trans hclosing),
      .breakLoop (ht.keeps (by simp [hkeyword]))⟩
  | @StatementForm.continueLoop _ keyword closing hkeyword hclosing => by
    refine ((Carries.token keyword).append (Carries.token closing)).imp ?_
    rintro φ i ⟨ht, hu⟩
    exact ⟨_, _, rfl, .continueLoop (ht.kind.trans hkeyword) (hu.kind.trans hclosing),
      .continueLoop (ht.keeps (by simp [hkeyword]))⟩
  | @StatementForm.block _ brace _ _ _ hbrace rest => by
    refine ((Carries.token brace).append rest.carries).imp ?_
    rintro φ i ⟨ht, _, body', rfl, hbody, hr⟩
    exact ⟨_, _, rfl, .block (ht.kind.trans hbrace) hbody, .block hr⟩
  | .expression whole => whole.carries.lift fun _ _ => .expression

theorem InitialClause.carries {d : Nat} {ts : List Token} {initial : Option Stmt} :
    InitialClause d ts initial → Carries r ts (Stmt.functionsOfOption initial)
      (Rewritten (InitialClause d) (Stmt.RenamesOption r) ts initial)
  | @InitialClause.none _ closing hclosing => (Carries.token closing).imp fun _ _ ht =>
    ⟨_, _, rfl, .none (ht.kind.trans hclosing), .none⟩
  | @InitialClause.define _ keyword _ _ hkeyword rest => by
    refine ((Carries.token keyword).append rest.carries).imp ?_
    rintro φ i ⟨ht, h⟩
    obtain ⟨_, s', rfl, hs, hr⟩ := h (φ keyword)
    exact ⟨_, _, rfl, .define (ht.kind.trans hkeyword) hs, .some hr⟩
  | .expression whole => by
    refine whole.carries.imp fun φ i h => ?_
    obtain ⟨us, s', hus, hs, hr⟩ := h
    exact ⟨us, _, hus, .expression hs, .some hr⟩

theorem Clause.carries {d : Nat} {ts : List Token} {value : Option Expr} :
    Clause d ts value → Carries r ts (Expr.functionsOfOption value)
      (Rewritten (Clause d) (Expr.RenamesOption r) ts value)
  | .none => (Carries.tokens []).imp fun _ _ _ => ⟨_, _, rfl, .none, .none⟩
  | .some value => by
    refine value.carries.imp fun φ i h => ?_
    obtain ⟨us, e', hus, he, hr⟩ := h
    exact ⟨us, _, hus, .some he, .some hr⟩

end

end Grammar

end Scripting
