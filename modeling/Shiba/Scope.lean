import Shiba.OrderedMap

/-!
# Scopes

A module's scope has a root frame for its top level and a stack of frames, one for each active
call of a function of that module.  A frame is a stack of levels: the body and one more for
every block being run.  A name is looked up in the current frame from the innermost level
outward and then in the root frame, so a function never sees the names of its caller.

Objects and struct definitions live in two name spaces of the same shape.
-/

namespace Shiba

/-- A stack of levels of names: the body and the open blocks, the innermost first. -/
structure Levels (α : Type) where
  body : OrderedMap String α
  blocks : List (OrderedMap String α)

namespace Levels

variable {α : Type}

/-- A body without names and without open blocks. -/
def empty : Levels α := ⟨.empty, []⟩

/-- The number of open blocks. -/
def depth (l : Levels α) : Nat := l.blocks.length

/-- All levels, the innermost first. -/
def toList (l : Levels α) : List (OrderedMap String α) := l.blocks ++ [l.body]

/-- Opens a block. -/
def push (l : Levels α) : Levels α := { l with blocks := .empty :: l.blocks }

/-- Closes the innermost block. -/
def pop (l : Levels α) : Levels α := { l with blocks := l.blocks.tail }

/-- The innermost binding of a name among some levels. -/
def findIn (name : String) : List (OrderedMap String α) → Option α
  | [] => none
  | level :: outer =>
    match level.get? name with
    | some a => some a
    | none => findIn name outer

/-- The innermost binding of a name. -/
def get? (l : Levels α) (name : String) : Option α := findIn name l.toList

/-- Binds a name in the innermost level. -/
def declare (l : Levels α) (name : String) (a : α) : Levels α :=
  match l.blocks with
  | [] => { l with body := l.body.insert name a }
  | inner :: outer => { l with blocks := inner.insert name a :: outer }

/-- Binds a name anew in the innermost of some levels that has it; none when no level has it. -/
def rebindIn (name : String) (a : α) :
    List (OrderedMap String α) → Option (List (OrderedMap String α))
  | [] => none
  | level :: outer =>
    if level.contains name then some (level.insert name a :: outer)
    else (rebindIn name a outer).map (level :: ·)

/-- Binds a name where it is bound already, else in the innermost level. -/
def set (l : Levels α) (name : String) (a : α) : Levels α :=
  match rebindIn name a l.blocks with
  | some blocks => { l with blocks }
  | none =>
    if l.body.contains name then { l with body := l.body.insert name a } else l.declare name a

/-- All names with their innermost bindings, in the order in which they first come up from the body
inward. -/
def names (l : Levels α) : OrderedMap String α :=
  l.blocks.reverse.foldl (fun m level => m.insertMany level.entries) l.body

end Levels

/-- The names of one call, or of a module's top level. -/
structure Frame (α β : Type) where
  objs : Levels α
  structs : Levels β

namespace Frame

variable {α β : Type}

/-- A frame without names. -/
def empty : Frame α β := ⟨.empty, .empty⟩

/-- The number of open blocks. -/
def depth (f : Frame α β) : Nat := f.objs.depth

/-- Opens a block. -/
def pushBlock (f : Frame α β) : Frame α β := ⟨f.objs.push, f.structs.push⟩

/-- Closes the innermost block, if one is open. -/
def popBlock? (f : Frame α β) : Option (Frame α β) :=
  if f.depth = 0 then none else some ⟨f.objs.pop, f.structs.pop⟩

end Frame

/-- The names of a module: its top level and its active calls, the innermost first. -/
structure Scope (α β : Type) where
  root : Frame α β
  frames : List (Frame α β)

namespace Scope

variable {α β : Type}

/-- A scope without names and without active calls. -/
def empty : Scope α β := ⟨.empty, []⟩

/-- The frame of the innermost call, or of the top level when no call is active. -/
def current (s : Scope α β) : Frame α β := s.frames.headD s.root

/-- The scope with its current frame changed. -/
def modifyCurrent (s : Scope α β) (f : Frame α β → Frame α β) : Scope α β :=
  match s.frames with
  | [] => { s with root := f s.root }
  | frame :: outer => { s with frames := f frame :: outer }

/-- The number of active calls. -/
def functionDepth (s : Scope α β) : Nat := s.frames.length

/-- The number of open blocks in the current frame. -/
def blockDepth (s : Scope α β) : Nat := s.current.depth

/-- Starts a call. -/
def pushFunction (s : Scope α β) : Scope α β := { s with frames := .empty :: s.frames }

/-- Ends the innermost call, if one is active. -/
def popFunction? (s : Scope α β) : Option (Scope α β) :=
  match s.frames with
  | [] => none
  | _ :: outer => some { s with frames := outer }

/-- Opens a block in the current frame. -/
def pushBlock (s : Scope α β) : Scope α β := s.modifyCurrent Frame.pushBlock

/-- Closes the innermost block of the current frame, if one is open. -/
def popBlock? (s : Scope α β) : Option (Scope α β) :=
  s.current.popBlock?.map fun frame => s.modifyCurrent fun _ => frame

/-- What a name of an object means. -/
def getObj? (s : Scope α β) (name : String) : Option α :=
  match s.frames with
  | [] => s.root.objs.get? name
  | frame :: _ => (frame.objs.get? name).or (s.root.objs.get? name)

/-- What a name of a struct means. -/
def getStruct? (s : Scope α β) (name : String) : Option β :=
  match s.frames with
  | [] => s.root.structs.get? name
  | frame :: _ => (frame.structs.get? name).or (s.root.structs.get? name)

/-- Binds an object in the current frame where the name is bound there, else in its innermost
level. -/
def setObj (s : Scope α β) (name : String) (a : α) : Scope α β :=
  s.modifyCurrent fun f => { f with objs := f.objs.set name a }

/-- Binds a struct in the current frame where the name is bound there, else in its innermost
level. -/
def setStruct (s : Scope α β) (name : String) (b : β) : Scope α β :=
  s.modifyCurrent fun f => { f with structs := f.structs.set name b }

/-- Binds an object in the innermost level. -/
def declareObj (s : Scope α β) (name : String) (a : α) : Scope α β :=
  s.modifyCurrent fun f => { f with objs := f.objs.declare name a }

/-- Binds a struct in the innermost level. -/
def declareStruct (s : Scope α β) (name : String) (b : β) : Scope α β :=
  s.modifyCurrent fun f => { f with structs := f.structs.declare name b }

end Scope

end Shiba
