import RecencyCache.Outline

/-!
# Slot lists

A doubly linked list whose nodes live in the slots of an array and are named by slot number.  A removed node leaves
its slot vacant; the next node stored takes the slot vacated last, and the array grows only when none is vacant.  A
slot number is a valid handle as long as its node stays, and every operation accepts any number: one without a node
is answered with `none` or `false` and changes nothing.
-/

namespace RecencyCache

/-- A value and the slot numbers of its two neighbours. -/
structure Node (α : Type) where
  value : α
  prev : Option Nat
  next : Option Nat
deriving DecidableEq

/-- Nodes in slots, linked from the front to the back. -/
structure SlotList (α : Type) where
  slots : Array (Option (Node α)) := #[]
  vacant : List Nat := []
  front : Option Nat := none
  back : Option Nat := none
  length : Nat := 0
deriving DecidableEq

namespace SlotList

variable {α : Type}

def empty : SlotList α :=
  {}

instance : EmptyCollection (SlotList α) :=
  ⟨empty⟩

instance : Inhabited (SlotList α) :=
  ⟨empty⟩

/-! ### Reading -/

def node? (l : SlotList α) (s : Nat) : Option (Node α) :=
  l.slots[s]?.join

def get? (l : SlotList α) (s : Nat) : Option α :=
  (l.node? s).map (·.value)

/-- The slot after a slot, towards the back. -/
def next? (l : SlotList α) (s : Nat) : Option Nat :=
  (l.node? s).bind (·.next)

/-- The slots met from a slot on towards the back, unless there are more than `fuel` of them. -/
def slotsFrom (l : SlotList α) : Nat → Option Nat → Option (List Nat)
  | _, none => some []
  | 0, some _ => none
  | fuel + 1, some s => (l.slotsFrom fuel (l.next? s)).map (s :: ·)

/-- The slots from front to back; a walk that visits no slot twice takes no more steps than there are slots, so that it
comes to the back (`WellFormed.slotsFrom_eq`, `WellFormed.length_le_size`). -/
def order (l : SlotList α) : List Nat :=
  (l.slotsFrom l.slots.size l.front).getD []

def toList (l : SlotList α) : List α :=
  l.order.filterMap l.get?

/-- The rendering of a list, given that of its values. -/
def outline (l : SlotList α) (part : α → Outline) : Outline :=
  .items (l.toList.map part)

/-! ### Single nodes -/

/-- Changes the node in a slot, if there is one. -/
def modifyNode (l : SlotList α) (s : Nat) (f : Node α → Node α) : SlotList α :=
  { l with slots := l.slots.modify s (Option.map f) }

/-- Replaces the value in a slot, if there is one. -/
def set (l : SlotList α) (s : Nat) (value : α) : SlotList α :=
  l.modifyNode s fun node => { node with value }

/-- Puts a node into a slot of its own: the slot vacated last, or a new one. -/
def store (l : SlotList α) (node : Node α) : Nat × SlotList α :=
  match l.vacant with
  | s :: vacant => (s, { l with slots := l.slots.setIfInBounds s (some node), vacant })
  | [] => (l.slots.size, { l with slots := l.slots.push (some node) })

/-- Empties a slot and makes it the one vacated last. -/
def vacate (l : SlotList α) (s : Nat) : SlotList α :=
  { l with slots := l.slots.setIfInBounds s none, vacant := s :: l.vacant }

/-! ### Links -/

/-- Sets what follows a slot, or what the list starts with. -/
def linkNext (l : SlotList α) (at? : Option Nat) (next : Option Nat) : SlotList α :=
  match at? with
  | some s => l.modifyNode s fun node => { node with next }
  | none => { l with front := next }

/-- Sets what precedes a slot, or what the list ends with. -/
def linkPrev (l : SlotList α) (at? : Option Nat) (prev : Option Nat) : SlotList α :=
  match at? with
  | some s => l.modifyNode s fun node => { node with prev }
  | none => { l with back := prev }

/-- Takes a node out of the chain: its neighbours are linked to each other, and the node to nothing. -/
def detach (l : SlotList α) (s : Nat) : SlotList α :=
  match l.node? s with
  | none => l
  | some node =>
    ((l.linkNext node.prev node.next).linkPrev node.next node.prev).modifyNode s
      fun node => { node with prev := none, next := none }

/-- Links a node in before the front. -/
def attachFront (l : SlotList α) (s : Nat) : SlotList α :=
  let l' := (l.modifyNode s fun node => { node with prev := none, next := l.front }).linkPrev l.front (some s)
  { l' with front := some s }

/-! ### Operations -/

/-- Stores a value in a node that is linked to the front already, and then the front to it. -/
def pushFront (l : SlotList α) (value : α) : Nat × SlotList α :=
  let (s, l') := l.store ⟨value, none, l.front⟩
  (s, { l'.linkPrev l.front (some s) with front := some s, length := l.length + 1 })

/-- Moves a node to the front; answers whether there is one in the slot. -/
def moveToFront (l : SlotList α) (s : Nat) : Bool × SlotList α :=
  if (l.node? s).isNone then (false, l)
  else if l.front = some s then (true, l)
  else (true, (l.detach s).attachFront s)

def remove (l : SlotList α) (s : Nat) : Option α × SlotList α :=
  match l.node? s with
  | none => (none, l)
  | some node =>
    let l := (l.detach s).vacate s
    (some node.value, { l with length := l.length - 1 })

def clear (_ : SlotList α) : SlotList α :=
  empty

end SlotList

end RecencyCache
