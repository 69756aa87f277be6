import RecencyCache.Cache.Effect

/-!
# Operations on a cache

Every operation holds the cache from its start to its end.  A new key that finds the cache full drops the entry
touched longest ago first, so the capacity is never exceeded.  A lookup first offers the value to a predicate, which
may have the entry dropped, then to an update; only when both are through is the entry touched and the hit counted,
so a callback that stops early leaves order, index and counters as they were.  The forms whose name starts with `try`
take callbacks that may fail and answer with the failure; the others take callbacks that cannot.
-/

namespace RecencyCache

namespace Cache

open Effect

variable {κ ν ω ε α : Type} [BEq κ] [Hashable κ] [EquivBEq κ] [LawfulHashable κ]

/-! ### Steps -/

def evictOldest : Effect κ ν ω ε (Option (κ × ν)) := do
  match ← ask (·.order.back) with
  | none => return none
  | some s =>
    match ← changeGet (·.unlink s) with
    | none => return none
    | some entry =>
      count .eviction
      say fun c => .evictedOldest c.index.size
      return some entry

/-- Makes an entry for a key that has none; answers with the entry dropped to make room. -/
def insertNew (k : κ) (value : ν) : Effect κ ν ω ε (Option (κ × ν)) := do
  let evicted ← if ← ask (·.isFull) then evictOldest else pure none
  change (·.link k value)
  count .insertion
  return evicted

/-- Looks a key up for `evictIf` to decide whether its entry is dropped, and for `update` to edit the value of one
that is kept; answers with the slot of the entry kept. -/
def lookup (k : κ) (update : Update ν ω ε) (evictIf : ν → Callback ω ε Bool) :
    Effect κ ν ω ε (Option Nat) := do
  match ← ask (·.find? k) with
  | none =>
    count .miss
    return none
  | some (s, _, value) =>
    if ← call (evictIf value) then
      let _ ← changeGet (·.unlink s)
      count .predicateEviction
      count .miss
      say fun c => .evictedOnLookup c.index.size
      return none
    else
      edit s update
      change (·.touch s)
      count .hit
      return some s

/-- Offers the values from a slot on towards the back to a predicate and drops those that it matches; the next slot
is read before the predicate runs, so dropping an entry does not lose the way.  `removed` have been dropped before.
At most `fuel` slots are visited, and it is a fault to come to another one; a sweep that may visit as many as there are
in the array never does (`Op.apply_ne_outOfFuel`). -/
def sweepFrom (matches? : ν → Callback ω ε Bool) : Nat → Option Nat → Nat → Effect κ ν ω ε Nat
  | _, none, removed => return removed
  | 0, some _, _ => throw (.faulted .outOfFuel)
  | fuel + 1, some s, removed => do
    let next ← ask (·.order.next? s)
    let matched ← match ← ask (·.order.get? s) with
      | some (_, value) => call (matches? value)
      | none => pure false
    if matched then
      match ← changeGet (·.unlink s) with
      | some _ =>
        count .predicateEviction
        sweepFrom matches? fuel next (removed + 1)
      | none => sweepFrom matches? fuel next removed
    else
      sweepFrom matches? fuel next removed

/-! ### Storing -/

/-- Stores a value under a key and touches the entry; answers with the entry dropped to make room.  An entry that is
there already keeps its key and takes the value. -/
def put (k : κ) (value : ν) : Effect κ ν ω ε (Option (κ × ν)) := exclusively do
  match ← ask (·.find? k) with
  | some (s, _, _) =>
    change (·.setValue s value)
    change (·.touch s)
    count .update
    return none
  | none => insertNew k value

/-- The value of a key, which is made and stored if there is none.  It is made before anything is dropped. -/
def tryGetOrInsertWith (k : κ) (make : Callback ω ε ν) : Effect κ ν ω ε ν := exclusively do
  match ← ask (·.find? k) with
  | some (s, _, value) =>
    change (·.touch s)
    count .hit
    return value
  | none =>
    let value ← call make
    count .miss
    let _ ← insertNew k value
    return value

def getOrInsertWith (k : κ) (make : Callback ω Empty ν) : Effect κ ν ω ε ν :=
  widen (tryGetOrInsertWith k make)

/-! ### Looking up -/

/-- The value of a key after `update`, unless `evictIf` has the entry dropped. -/
def tryGetOrEvict (k : κ) (update : Update ν ω ε) (evictIf : ν → Callback ω ε Bool) :
    Effect κ ν ω ε (Option ν) := exclusively do
  match ← lookup k update evictIf with
  | none => return none
  | some s => ask fun c => (c.order.get? s).map (·.2)

def getOrEvict (k : κ) (update : Update ν ω Empty) (evictIf : ν → Callback ω Empty Bool) :
    Effect κ ν ω ε (Option ν) :=
  widen (tryGetOrEvict k update evictIf)

def get (k : κ) : Effect κ ν ω ε (Option ν) :=
  getOrEvict k .keep fun _ => pure false

def getAndUpdate (k : κ) (update : Update ν ω Empty) : Effect κ ν ω ε (Option ν) :=
  getOrEvict k update fun _ => pure false

/-- What `view` makes of the value of a key; it runs after the entry has been touched. -/
def getWith (k : κ) (view : ν → Callback ω Empty α) : Effect κ ν ω ε (Option α) := widen <| exclusively do
  match ← lookup k .keep fun _ => pure false with
  | none => return none
  | some s =>
    match ← ask (·.order.get? s) with
    | none => return none
    | some (_, value) => return some (← call (view value))

/-- Whether a key still has an entry after `evictIf`, which may have it dropped, and `update`. -/
def tryExistsOrEvict (k : κ) (update : Update ν ω ε) (evictIf : ν → Callback ω ε Bool) :
    Effect κ ν ω ε Bool :=
  exclusively do return (← lookup k update evictIf).isSome

def existsOrEvict (k : κ) (update : Update ν ω Empty) (evictIf : ν → Callback ω Empty Bool) :
    Effect κ ν ω ε Bool :=
  widen (tryExistsOrEvict k update evictIf)

/-- Whether a key has an entry, which is not touched. -/
def containsKey (k : κ) : Effect κ ν ω ε Bool := exclusively do
  ask (·.index.contains k)

/-! ### Removing -/

/-- Removes the entry of a key; answers with its value. -/
def remove (k : κ) : Effect κ ν ω ε (Option ν) := exclusively do
  match ← changeGet (·.takeOut k) with
  | none => return none
  | some (_, value) =>
    count .removal
    return some value

/-- Offers every value once to a predicate, most recently touched first, and drops the entries that it matches;
answers with their number.  What was dropped before the predicate stops early stays dropped. -/
def tryRemoveIf (matches? : ν → Callback ω ε Bool) : Effect κ ν ω ε Nat := exclusively do
  let front ← ask (·.order.front)
  let removed ← sweepFrom matches? (← ask (·.order.slots.size)) front 0
  if 0 < removed then
    say fun c => .swept removed c.index.size
  return removed

def removeIf (matches? : ν → Callback ω Empty Bool) : Effect κ ν ω ε Nat :=
  widen (tryRemoveIf matches?)

def clear : Effect κ ν ω ε Unit := exclusively do
  say fun c => .clearing c.length
  change (·.drop)

end Cache

end RecencyCache
