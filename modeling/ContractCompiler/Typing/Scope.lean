import ContractCompiler.Typing.TypeTable

/-!
# Scopes

The names that can be seen at a place of a program: those of the blocks around it up to the
function it is in, and the ones that are built in.
-/

namespace ContractCompiler

/-- Whether the frames around a frame can be seen from inside it. -/
inductive Boundary where
  | clear | sealed
deriving DecidableEq, Repr

/-- The names declared in one block or function. -/
structure Frame where
  boundary : Boundary
  vars : List (String × Field)
deriving DecidableEq, Repr

/-- The names that are always seen, and the frames in use, innermost first. -/
structure Scopes where
  root : List (String × Field)
  frames : List Frame
deriving DecidableEq, Repr

namespace Scopes

/-- No names at all. -/
def empty : Scopes := ⟨[], []⟩

/-- Enters a frame. -/
def push (s : Scopes) (boundary : Boundary) : Scopes :=
  { s with frames := ⟨boundary, []⟩ :: s.frames }

/-- Leaves the innermost frame. The built-in names stay. -/
def pop (s : Scopes) : Scopes :=
  { s with frames := s.frames.tail }

/-- The number of frames, the built-in names included. -/
def depth (s : Scopes) : Nat :=
  s.frames.length + 1

/-- Adds a name to the innermost frame; nothing if the frame has it already. -/
def declare? (s : Scopes) (name : String) (f : Field) : Option Scopes :=
  match s.frames with
  | [] => if (s.root.lookup name).isSome then none else some { s with root := (name, f) :: s.root }
  | frame :: outer =>
    if (frame.vars.lookup name).isSome then none
    else some { s with frames := { frame with vars := (name, f) :: frame.vars } :: outer }

/-- Adds a name to the innermost frame, unless the frame has it already. -/
def declare (s : Scopes) (name : String) (f : Field) : Scopes :=
  (s.declare? name f).getD s

/-- Finds a name in frames, from the innermost to the first that is sealed. -/
def lookupFrames : List Frame → String → Option Field
  | [], _ => none
  | frame :: outer, name =>
    match frame.vars.lookup name with
    | some f => some f
    | none =>
      match frame.boundary with
      | .clear => lookupFrames outer name
      | .sealed => none

/-- Finds a name: in the frames, then among the built-in names. -/
def lookup? (s : Scopes) (name : String) : Option Field :=
  (lookupFrames s.frames name).or (s.root.lookup name)

end Scopes

end ContractCompiler
