/-!
# Scopes

* `FrameId` : the number of a frame in a store;
* `Scope` : the frames visible at a point of a program, the innermost first;
* `Scope.chain`, `Scope.depth` : those frames as a list, and how many enclose the innermost.
-/

namespace Scripting

set_option autoImplicit false

/-- The number of a frame in a store. -/
abbrev FrameId := Nat

/-- The frames visible at a point of a program: the innermost, and those around it from the inside
out. -/
structure Scope where
  inner : FrameId
  outer : List FrameId
  deriving DecidableEq, Repr, Inhabited

namespace Scope

/-- The scope in which only the frame `id` is visible. -/
def single (id : FrameId) : Scope := ⟨id, []⟩

/-- The visible frames, the innermost first. -/
def chain (s : Scope) : List FrameId := s.inner :: s.outer

/-- The number of frames around the innermost. -/
def depth (s : Scope) : Nat := s.outer.length

/-- The scope inside `s` with the new frame `id`. -/
def enter (s : Scope) (id : FrameId) : Scope := ⟨id, s.chain⟩

@[simp] theorem chain_single (id : FrameId) : (single id).chain = [id] := rfl

@[simp] theorem chain_enter (s : Scope) (id : FrameId) : (s.enter id).chain = id :: s.chain := rfl

@[simp] theorem depth_enter (s : Scope) (id : FrameId) : (s.enter id).depth = s.depth + 1 := rfl

theorem length_chain (s : Scope) : s.chain.length = s.depth + 1 := rfl

end Scope

end Scripting
