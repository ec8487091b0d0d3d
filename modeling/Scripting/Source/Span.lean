/-!
# Spans and positions in a source text

* `Span` : a half-open range of byte offsets;
* `Span.through` : from the start of one span to the stop of another;
* `Position` : a byte offset together with the line it lies on;
* `Position.after` : the position behind a piece of text (`after_append`, `offset_after`,
  `line_after`).
-/

namespace Scripting

set_option autoImplicit false

/-- A half-open range of byte offsets of a source text. -/
structure Span where
  start : Nat
  stop : Nat
  deriving DecidableEq, Repr, Inhabited

namespace Span

/-- The range from where `first` starts to where `last` stops. -/
def through (first last : Span) : Span := ⟨first.start, last.stop⟩

@[simp] theorem start_through (first last : Span) : (first.through last).start = first.start := rfl

@[simp] theorem stop_through (first last : Span) : (first.through last).stop = last.stop := rfl

end Span

/-- A place in a source text: bytes before it, and the number of its line, the first line being 1.
-/
structure Position where
  offset : Nat
  line : Nat
  deriving DecidableEq, Repr, Inhabited

namespace Position

/-- The place where every source text begins. -/
def origin : Position := ⟨0, 1⟩

/-- The place behind the character `c`; a line feed ends its line. -/
def next (p : Position) (c : Char) : Position :=
  ⟨p.offset + c.utf8Size, if c = '\n' then p.line + 1 else p.line⟩

/-- The number of bytes of a text. -/
def byteCount : List Char → Nat
  | [] => 0
  | c :: cs => c.utf8Size + byteCount cs

/-- The place behind the text `cs`. -/
def after (p : Position) (cs : List Char) : Position := cs.foldl next p

@[simp] theorem after_nil (p : Position) : p.after [] = p := rfl

@[simp] theorem after_cons (p : Position) (c : Char) (cs : List Char) :
    p.after (c :: cs) = (p.next c).after cs := rfl

theorem after_append (p : Position) (cs ds : List Char) :
    p.after (cs ++ ds) = (p.after cs).after ds := by
  simp [after]

theorem offset_after (p : Position) (cs : List Char) :
    (p.after cs).offset = p.offset + byteCount cs := by
  induction cs generalizing p with
  | nil => rfl
  | cons c cs ih => rw [after_cons, ih, byteCount, next, Nat.add_assoc]

theorem line_after (p : Position) (cs : List Char) :
    (p.after cs).line = p.line + cs.count '\n' := by
  induction cs generalizing p with
  | nil => simp
  | cons c cs ih =>
    by_cases h : c = '\n'
    · simp [ih, next, h]; omega
    · simp [ih, next, h]

end Position

end Scripting
