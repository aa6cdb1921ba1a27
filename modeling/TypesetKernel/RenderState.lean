import TypesetKernel.FixedPoint

/-!
The list under construction and the lists of the groups around it. The nodes of all lists live in
one arena, to which nodes are only ever added and in which they keep their identity. Each node has a
link to the node behind it, and a list is what one meets when following the links from its head.
Links can be set at will, so a list may run in a circle or off to a node that does not exist, where
it ends. Entering a group saves the current frame, leaving it brings the saved frame back and hands
out the finished one. Nodes are appended behind the tail of the current list. A mode says what kind
of list is under construction; moving from one to another is up to the interpreter.
-/

namespace TypesetKernel

/-! ## Nodes -/

/-- Identifies a node by its place in the order of creation. -/
structure NodeId where
  index : UInt32
  deriving DecidableEq, Repr

/-- The identity in messages. -/
def NodeId.label (id : NodeId) : String := "#" ++ toString id.index.toNat

/-- A node and its link. -/
structure Slot (N : Type) where
  value : N
  link : Option NodeId
  deriving DecidableEq, Repr

/-- All nodes in the order of their creation. -/
structure NodeArena (N : Type) where
  slots : Array (Slot N)
  deriving DecidableEq, Repr

namespace NodeArena

variable {N : Type}

def empty : NodeArena N := ⟨#[]⟩

def size (a : NodeArena N) : Nat := a.slots.size

def slot? (a : NodeArena N) (id : NodeId) : Option (Slot N) := a.slots[id.index.toNat]?

def get? (a : NodeArena N) (id : NodeId) : Option N := (a.slot? id).map Slot.value

/-- The node behind a node. -/
def successor? (a : NodeArena N) (id : NodeId) : Option NodeId := (a.slot? id).bind Slot.link

/-- Adds a node without a link. -/
def alloc (a : NodeArena N) (value : N) : NodeId × NodeArena N :=
  (⟨UInt32.ofNat a.size⟩, ⟨a.slots.push { value, link := none }⟩)

/-- Changes the place of a node, if there is such a node. -/
def modify? (a : NodeArena N) (id : NodeId) (change : Slot N → Slot N) : Option (NodeArena N) :=
  if id.index.toNat < a.size then some ⟨a.slots.modify id.index.toNat change⟩ else none

def set? (a : NodeArena N) (id : NodeId) (value : N) : Option (NodeArena N) :=
  a.modify? id fun slot => { slot with value }

/-- Changes the link of a node; the new link may lead anywhere. -/
def link? (a : NodeArena N) (id : NodeId) (link : Option NodeId) : Option (NodeArena N) :=
  a.modify? id fun slot => { slot with link }

/-- Follows the links from a head for a limited number of nodes. -/
def walk (a : NodeArena N) : Option NodeId → Nat → List (NodeId × N)
  | some id, limit + 1 =>
    match a.slot? id with
    | some slot => (id, slot.value) :: a.walk slot.link limit
    | none => []
  | _, _ => []

end NodeArena

/-! ## Modes -/

/-- The kind of list under construction. -/
inductive Mode where
  /-- Before the start of a run. -/
  | none
  /-- Outside of paragraphs and boxes. -/
  | vertical
  /-- Inside a paragraph. -/
  | horizontal
  /-- Inside a displayed formula. -/
  | math
  /-- Inside a vertical box. -/
  | internalVertical
  /-- Inside a horizontal box. -/
  | internalHorizontal
  /-- Inside a formula within a line. -/
  | internalMath
  deriving DecidableEq, Repr

namespace Mode

def isVertical (m : Mode) : Bool := m = vertical || m = internalVertical

def isHorizontal (m : Mode) : Bool := m = horizontal || m = internalHorizontal

def isMath (m : Mode) : Bool := m = math || m = internalMath

/-- Builds a list inside a box or a line. -/
def isInternal (m : Mode) : Bool :=
  m = internalVertical || m = internalHorizontal || m = internalMath

def text : Mode → String
  | none => "no mode"
  | vertical => "vertical"
  | horizontal => "horizontal"
  | math => "display math"
  | internalVertical => "internal vertical"
  | internalHorizontal => "restricted horizontal"
  | internalMath => "math"

end Mode

/-! ## Lists under construction -/

/-- The state of one list under construction. -/
structure Frame where
  head : Option NodeId := none
  tail : Option NodeId := none
  /-- The number of lines of the most recent paragraph. -/
  prevGraf : UInt32 := 0
  /-- Whatever else the interpreter keeps with a list. -/
  aux : Word := .zero
  deriving DecidableEq, Repr

/-- Why a node could not be appended. -/
inductive AppendFailure where
  | unknownNode (id : NodeId)
  | unknownTail (id : NodeId)
  deriving DecidableEq, Repr

def AppendFailure.message : AppendFailure → String
  | .unknownNode id => s!"{id.label} is not a node of this render state"
  | .unknownTail id => s!"tail {id.label} is not a node of this render state"

/-- All lists of a run. -/
structure RenderState (N : Type) where
  nodes : NodeArena N := .empty
  current : Frame := {}
  /-- The frames of the groups around the current one, innermost first. -/
  saved : List Frame := []
  mode : Mode := .none
  deriving DecidableEq, Repr

namespace RenderState

variable {N : Type}

/-- Whether the current list has no head. -/
def isEmpty (r : RenderState N) : Bool := r.current.head.isNone

def depth (r : RenderState N) : Nat := r.saved.length

def mapFrame (r : RenderState N) (change : Frame → Frame) : RenderState N :=
  { r with current := change r.current }

/-- Starts the current list anew and keeps the length of the most recent paragraph. -/
def clear (r : RenderState N) : RenderState N :=
  r.mapFrame fun frame => { prevGraf := frame.prevGraf }

/-- Adds a node that is in no list yet. -/
def alloc (r : RenderState N) (value : N) : NodeId × RenderState N :=
  let (id, nodes) := r.nodes.alloc value
  (id, { r with nodes })

/-- Puts a node behind the tail of the current list. -/
def append (r : RenderState N) (id : NodeId) : Except AppendFailure (RenderState N) :=
  match r.nodes.get? id, r.current.tail with
  | none, _ => .error (.unknownNode id)
  | some _, none => .ok (r.mapFrame fun frame => { frame with head := some id, tail := some id })
  | some _, some tail =>
    match r.nodes.link? tail (some id) with
    | none => .error (.unknownTail tail)
    | some nodes =>
      .ok { r with nodes, current := { r.current with tail := some id } }

/-- Saves a copy of the current frame. -/
def push (r : RenderState N) : RenderState N := { r with saved := r.current :: r.saved }

/-- Brings the innermost saved frame back and hands out the one it replaces. -/
def pop? (r : RenderState N) : Option (Frame × RenderState N) :=
  match r.saved with
  | [] => none
  | frame :: saved => some (r.current, { r with current := frame, saved })

def setNode? (r : RenderState N) (id : NodeId) (value : N) : Option (RenderState N) :=
  (r.nodes.set? id value).map fun nodes => { r with nodes }

def link? (r : RenderState N) (id : NodeId) (link : Option NodeId) : Option (RenderState N) :=
  (r.nodes.link? id link).map fun nodes => { r with nodes }

/-- The current list, up to a limited number of nodes. -/
def list (r : RenderState N) (limit : Nat) : List (NodeId × N) :=
  r.nodes.walk r.current.head limit

end RenderState

end TypesetKernel
