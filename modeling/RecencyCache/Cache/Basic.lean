import Std.Data.ExtHashMap
import RecencyCache.Event
import RecencyCache.Metrics.Report
import RecencyCache.SlotList.Basic

/-!
# Caches

A cache keeps its entries in a slot list, most recently touched first, and an index that maps each key to the slot of
its entry.  Keys count as equal when `==` says so, which may identify more than `=` does; the entry carries the key
that it was made with.  A cache is held exclusively while an operation runs, and whoever renders it meanwhile learns
only that.
-/

namespace RecencyCache

/-- Entries in order of recency, the index into them, the counters, and whether an operation is going on. -/
structure Cache (κ ν : Type) [BEq κ] [Hashable κ] where
  config : Config
  order : SlotList (κ × ν)
  index : Std.ExtHashMap κ Nat
  metrics : Metrics
  held : Bool

namespace Cache

variable {κ ν : Type} [BEq κ] [Hashable κ] [EquivBEq κ] [LawfulHashable κ]

def empty (config : Config) : Cache κ ν :=
  { config, order := ∅, index := ∅, metrics := .zero, held := false }

/-! ### Reading -/

/-- The greatest number of entries. -/
def capacity (c : Cache κ ν) : Nat :=
  c.config.limit

/-- The number of entries, as the order has it. -/
def length (c : Cache κ ν) : Nat :=
  c.order.length

/-- Whether there is no entry, as the index has it. -/
def isEmpty (c : Cache κ ν) : Bool :=
  c.index.isEmpty

/-- The entries, most recently touched first. -/
def toList (c : Cache κ ν) : List (κ × ν) :=
  c.order.toList

def find? (c : Cache κ ν) (k : κ) : Option (Nat × κ × ν) :=
  c.index[k]?.bind fun s => (c.order.get? s).map (s, ·)

/-- Whether there is no room for another entry. -/
def isFull (c : Cache κ ν) : Bool :=
  c.capacity ≤ c.index.size

/-- The rendering of a cache; while it is held, its contents are not to be seen. -/
def outline (c : Cache κ ν) : Outline :=
  let contents : Outline :=
    if c.held then .text "\"<locked>\""
    else .record "LruSegment" [("capacity", .number c.capacity), ("len", .number c.index.size)]
  .record "BoundedLruCache" [("segment", contents)]

/-! ### Changing single parts -/

/-- Replaces the value of the entry in a slot. -/
def setValue (c : Cache κ ν) (s : Nat) (value : ν) : Cache κ ν :=
  match c.order.get? s with
  | some (key, _) => { c with order := c.order.set s (key, value) }
  | none => c

/-- Makes the entry in a slot the most recently touched one. -/
def touch (c : Cache κ ν) (s : Nat) : Cache κ ν :=
  { c with order := (c.order.moveToFront s).2 }

/-- Adds an entry for a new key as the most recently touched one. -/
def link (c : Cache κ ν) (key : κ) (value : ν) : Cache κ ν :=
  let (s, order) := c.order.pushFront (key, value)
  { c with order, index := c.index.insert key s }

/-- Removes the entry in a slot from the order, and its key from the index. -/
def unlink (c : Cache κ ν) (s : Nat) : Option (κ × ν) × Cache κ ν :=
  match c.order.remove s with
  | (some (key, value), order) => (some (key, value), { c with order, index := c.index.erase key })
  | (none, _) => (none, c)

/-- Removes a key from the index, and its entry from the order. -/
def takeOut (c : Cache κ ν) (k : κ) : Option (κ × ν) × Cache κ ν :=
  match c.index[k]? with
  | some s =>
    let (entry, order) := c.order.remove s
    (entry, { c with order, index := c.index.erase k })
  | none => (none, c)

/-- Drops all entries; the counters stay. -/
def drop (c : Cache κ ν) : Cache κ ν :=
  { c with order := c.order.clear, index := ∅ }

end Cache

end RecencyCache
