import Scripting.Diagnostic.Basic
import Scripting.Value.Basic

/-!
# Stores

* `Frame` : names with their values, in the order in which the names were first defined;
* `Store` : all frames; scopes share them, so a value assigned in one is seen in all;
* `Store.add`, `Store.define`, `Store.lookup?` : the operations on a store (`frame_define`,
  `frame_add`);
* `Store.read`, `Store.write` : reading and assigning the name that a token is, with a fault if no
  visible frame binds it.
-/

namespace Scripting

set_option autoImplicit false

/-! ## Frames -/

/-- Names with their values, in the order in which the names were first defined. -/
structure Frame where
  bindings : List (String × Value)

instance : Inhabited Frame := ⟨⟨[]⟩⟩

namespace Frame

/-- The frame without names. -/
def empty : Frame := ⟨[]⟩

/-- The bindings with the value of `name` put in its place, or behind all others if it is new. -/
def put (name : String) (value : Value) : List (String × Value) → List (String × Value)
  | [] => [(name, value)]
  | (n, v) :: rest => if n = name then (n, value) :: rest else (n, v) :: put name value rest

/-- The value bound to `name`. -/
def get? (name : String) : List (String × Value) → Option Value
  | [] => none
  | (n, v) :: rest => if n = name then some v else get? name rest

/-- Binds a name; one that is bound keeps its place. -/
def define (f : Frame) (name : String) (value : Value) : Frame := ⟨put name value f.bindings⟩

/-- The value of a name. -/
def lookup? (f : Frame) (name : String) : Option Value := get? name f.bindings

/-- Whether a name is bound. -/
def binds (f : Frame) (name : String) : Bool := (f.lookup? name).isSome

/-- The names, in the order in which they were first defined. -/
def names (f : Frame) : List String := f.bindings.map Prod.fst

theorem get?_put (name : String) (value : Value) (bs : List (String × Value)) (n : String) :
    get? n (put name value bs) = if n = name then some value else get? n bs := by
  induction bs with
  | nil => simp only [put, get?, eq_comm]
  | cons b bs ih =>
    obtain ⟨m, v⟩ := b
    by_cases hm : m = name
    · subst hm
      by_cases h : n = m
      · simp [put, get?, h]
      · simp [put, get?, h, Ne.symm h]
    · by_cases h : m = n
      · subst h
        simp [put, get?, hm]
      · simp [put, get?, hm, h, ih]

@[simp] theorem lookup?_define (f : Frame) (name : String) (value : Value) (n : String) :
    (f.define name value).lookup? n = if n = name then some value else f.lookup? n :=
  get?_put name value f.bindings n

end Frame

/-! ## Stores -/

/-- All frames, by number. -/
structure Store where
  frames : Array Frame

instance : Inhabited Store := ⟨⟨#[]⟩⟩

namespace Store

/-- The store without frames. -/
def empty : Store := ⟨#[]⟩

/-- The number that the next frame gets. -/
def size (s : Store) : Nat := s.frames.size

/-- The frame of a number. -/
def frame (s : Store) (id : FrameId) : Frame := s.frames.getD id .empty

/-- The store with one frame more, whose number is the former size. -/
def add (s : Store) (f : Frame) : Store := ⟨s.frames.push f⟩

/-- Binds a name in one frame. -/
def define (s : Store) (id : FrameId) (name : String) (value : Value) : Store :=
  ⟨s.frames.modify id (·.define name value)⟩

/-- The first of the frames in which a name is bound. -/
def binder? (s : Store) (chain : List FrameId) (name : String) : Option FrameId :=
  chain.find? fun id => (s.frame id).binds name

/-- The value of a name in the innermost visible frame that binds it. -/
def lookup? (s : Store) (scope : Scope) (name : String) : Option Value :=
  scope.chain.findSome? fun id => (s.frame id).lookup? name

@[simp] theorem size_add (s : Store) (f : Frame) : (s.add f).size = s.size + 1 := by
  simp [size, add]

@[simp] theorem size_define (s : Store) (id : FrameId) (name : String) (value : Value) :
    (s.define id name value).size = s.size := by
  simp [size, define]

theorem frame_add (s : Store) (f : Frame) (id : FrameId) :
    (s.add f).frame id = if id = s.size then f else s.frame id := by
  simp only [frame, add, size, Array.getD_eq_getD_getElem?, Array.getElem?_push]
  split <;> simp

theorem frame_define (s : Store) (i id : FrameId) (name : String) (value : Value) (h : i < s.size) :
    (s.define i name value).frame id =
      if id = i then (s.frame i).define name value else s.frame id := by
  simp only [frame, define, Array.getD_eq_getD_getElem?, Array.getElem?_modify]
  by_cases e : id = i
  · subst e
    have h' : id < s.frames.size := h
    simp [h']
  · simp [e, Ne.symm e]

/-! ## The names of tokens -/

/-- The fault of a name that no visible frame binds. -/
def undefinedAt (t : Token) : Diagnostic := .atToken (.runtime (.undefinedVariable t.lexeme)) t

/-- The value of the name that a token is. -/
def read (s : Store) (scope : Scope) (t : Token) : Except Diagnostic Value :=
  match s.lookup? scope t.lexeme with
  | some v => .ok v
  | none => .error (undefinedAt t)

/-- The innermost visible frame that binds the name that a token is. -/
def locate (s : Store) (scope : Scope) (t : Token) : Except Diagnostic FrameId :=
  match s.binder? scope.chain t.lexeme with
  | some id => .ok id
  | none => .error (undefinedAt t)

/-- The store with another value for the name that a token is. -/
def write (s : Store) (scope : Scope) (t : Token) (value : Value) : Except Diagnostic Store := do
  let id ← s.locate scope t
  pure (s.define id t.lexeme value)

end Store

end Scripting
