import Jaf.Analysis.Error
import Jaf.Container
import Jaf.Tree.Expr

/-!
# Scopes

The names visible at a point of a function are those of the enclosing blocks, the innermost first. A
frame is what one block has declared so far: slots of the function's variable list, whose names are in
the container. Outside of functions there is no frame, and names are global.

A frame refuses a second slot of the same name. The parameters are the exception: they enter the frame
of the function body all at once.
-/

namespace Jaf

/-- What one block has declared so far, oldest first, and the function it belongs to. -/
structure Frame where
  function : Nat
  slots : List Nat
deriving DecidableEq, Repr

/-- The slot a frame declares under a name, the last one first. -/
def Frame.find? (frame : Frame) (c : Container) (name : String) : Option (VarRef × Variable) := do
  let f ← c.functions[frame.function]?
  frame.slots.reverse.findSome? fun slot =>
    match f.vars[slot]? with
    | some v => if v.name = name then some (.local slot, v) else none
    | none => none

/-- The frames of the enclosing blocks, innermost first. -/
structure Scopes where
  frames : List Frame
deriving DecidableEq, Repr

namespace Scopes

/-- Outside of functions. -/
def empty : Scopes := ⟨[]⟩

/-- The number of enclosing blocks. -/
def depth (s : Scopes) : Nat := s.frames.length

/-- Whether we are outside of functions. -/
def isGlobal (s : Scopes) : Bool := s.frames.isEmpty

/-- The function we are in. -/
def function? (s : Scopes) : Option Nat := s.frames.head?.map (·.function)

/-- Enters a function body with its parameters declared. -/
def enterFunction (s : Scopes) (function argCount : Nat) : Scopes :=
  ⟨⟨function, List.range argCount⟩ :: s.frames⟩

/-- Enters a block of the function we are in; there are no blocks outside of functions. -/
def enterBlock? (s : Scopes) : Option Scopes :=
  s.function?.map fun f => ⟨⟨f, []⟩ :: s.frames⟩

/-- Leaves the innermost block. -/
def leave (s : Scopes) : Scopes := ⟨s.frames.tail⟩

/-- Declares a slot in the innermost block. -/
def declare (s : Scopes) (c : Container) (slot : Nat) (span : Span) : Except SemanticError Scopes :=
  match s.frames with
  | [] => .error ⟨span, .outsideFunction⟩
  | frame :: outer =>
    match c.functions[frame.function]? with
    | none => .error ⟨span, .outsideFunction⟩
    | some f =>
      match f.vars[slot]? with
      | none => .error ⟨span, .unknownSlot slot⟩
      | some v =>
        if frame.slots.any fun other => f.vars[other]?.any (·.name = v.name) then
          .error ⟨span, .nameRedefined v.name⟩
        else
          .ok ⟨{ frame with slots := frame.slots ++ [slot] } :: outer⟩

/-- What a name means here: a slot of the innermost block that declares it, or a global. -/
def find? (s : Scopes) (c : Container) (name : String) : Option (VarRef × Variable) :=
  match s.frames.findSome? (·.find? c name) with
  | some found => some found
  | none => do
    let n ← c.globalNo? name
    let v ← c.globals[n]?
    return (.global n, v)

end Scopes

end Jaf
