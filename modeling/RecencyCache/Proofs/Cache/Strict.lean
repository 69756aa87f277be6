import RecencyCache.Proofs.Cache.Arena
import RecencyCache.Proofs.SlotList.Strict

/-!
# Strict operations on a cache

The operations on a cache put up with a slot that has no node wherever they go by one.  The strict ones have no result
then.  They refuse an indexed key whose slot has no entry, an entry to be dropped, touched or read that is not there, a
full cache without a last entry, a key to be indexed that is indexed already, and an entry for which there is no room; a
sweep refuses to go on when its steps are used up.  Their changes of the order are the strict ones of slot lists.  Apart
from that they are written as the ordinary operations are.
-/

namespace RecencyCache

variable {κ ν ρ ω ε α β : Type} [BEq κ] [Hashable κ]

/-- A step of an operation that may have no result at all. -/
abbrev StrictEffect (κ ν ω ε α : Type) [BEq κ] [Hashable κ] : Type :=
  ExceptT (Abort ε) (StateT (World κ ν ω) Option) α

/-- How an effect ends in a world, and the world left behind. -/
def Effect.ends (x : Effect κ ν ω ε α) (w : World κ ν ω) : Except (Abort ε) α × World κ ν ω :=
  match x w with
  | .ok a w' => (.ok a, w')
  | .error e w' => (.error e, w')

namespace StrictEffect

def refuse : StrictEffect κ ν ω ε α := fun _ =>
  none

/-- An effect in which there is nothing to refuse. -/
def plain (x : Effect κ ν ω ε α) : StrictEffect κ ν ω ε α := fun w =>
  some (x.ends w)

/-- Reads off the cache what must be there. -/
def demand (f : Cache κ ν → Option α) : StrictEffect κ ν ω ε α := fun w =>
  (f w.cache).map fun a => (.ok a, w)

def alter (f : Cache κ ν → Option (Cache κ ν)) : StrictEffect κ ν ω ε Unit := fun w =>
  (f w.cache).map fun cache => (.ok (), { w with cache })

def alterGet (f : Cache κ ν → Option (α × Cache κ ν)) : StrictEffect κ ν ω ε α := fun w =>
  (f w.cache).map fun x => (.ok x.1, { w with cache := x.2 })

def exclusively (y : StrictEffect κ ν ω ε α) : StrictEffect κ ν ω ε α := fun w =>
  (y w.hold).map fun x => (x.1, { x.2 with cache := { x.2.cache with held := false } })

def widen (y : StrictEffect κ ν ω Empty α) : StrictEffect κ ν ω ε α := fun w =>
  (y w).map fun x => (x.1.mapError Abort.widen, x.2)

end StrictEffect

namespace Cache

variable [EquivBEq κ] [LawfulHashable κ]

namespace Strict

/-! ### Single parts -/

/-- An indexed key must have an entry. -/
def find? (c : Cache κ ν) (k : κ) : Option (Option (Nat × κ × ν)) :=
  match c.index[k]? with
  | none => some none
  | some s => (c.order.get? s).map fun entry => some (s, entry)

def setValue (c : Cache κ ν) (s : Nat) (value : ν) : Option (Cache κ ν) :=
  (c.order.get? s).map fun entry => { c with order := c.order.set s (entry.1, value) }

def touch (c : Cache κ ν) (s : Nat) : Option (Cache κ ν) :=
  match SlotList.Strict.moveToFront c.order s with
  | some (true, order) => some { c with order }
  | _ => none

/-- A key to be indexed must not be indexed, and there must be room for its entry. -/
def link (c : Cache κ ν) (key : κ) (value : ν) : Option (Cache κ ν) :=
  if c.index.contains key ∨ c.capacity ≤ c.length then none
  else (SlotList.Strict.pushFront c.order (key, value)).map fun pushed =>
    { c with order := pushed.2, index := c.index.insert key pushed.1 }

/-- The key of an entry to be dropped must lead to its slot. -/
def unlink (c : Cache κ ν) (s : Nat) : Option ((κ × ν) × Cache κ ν) :=
  match SlotList.Strict.remove c.order s with
  | some (some (key, value), order) =>
    if c.index[key]? = some s then some ((key, value), { c with order, index := c.index.erase key }) else none
  | _ => none

def takeOut (c : Cache κ ν) (k : κ) : Option (Option (κ × ν) × Cache κ ν) :=
  match c.index[k]? with
  | none => some (none, c)
  | some s =>
    match SlotList.Strict.remove c.order s with
    | some (some entry, order) => some (some entry, { c with order, index := c.index.erase k })
    | _ => none

/-! ### Operations -/

open StrictEffect
open Effect (ask call count say)

/-- A full cache must have a last entry. -/
def evictOldest : StrictEffect κ ν ω ε (Option (κ × ν)) := do
  let s ← demand (·.order.back)
  let entry ← alterGet (unlink · s)
  plain (count .eviction)
  plain (say fun c => .evictedOldest c.index.size)
  return some entry

def insertNew (k : κ) (value : ν) : StrictEffect κ ν ω ε (Option (κ × ν)) := do
  let evicted ← if ← plain (ask (·.isFull)) then evictOldest else pure none
  alter (link · k value)
  plain (count .insertion)
  return evicted

/-- Runs an update on the value of the entry in a slot, which must have one. -/
def edit (s : Nat) (update : Update ν ω ε) : StrictEffect κ ν ω ε Unit := do
  let _ ← demand (·.order.get? s)
  plain (Effect.edit s update)

def lookup (k : κ) (update : Update ν ω ε) (evictIf : ν → Callback ω ε Bool) :
    StrictEffect κ ν ω ε (Option Nat) := do
  match ← demand (find? · k) with
  | none =>
    plain (count .miss)
    return none
  | some (s, _, value) =>
    if ← plain (call (evictIf value)) then
      let _ ← alterGet (unlink · s)
      plain (count .predicateEviction)
      plain (count .miss)
      plain (say fun c => .evictedOnLookup c.index.size)
      return none
    else
      edit s update
      alter (touch · s)
      plain (count .hit)
      return some s

/-- Visits the entries from a slot on, each of which must be there, and must come to the end of them in so many
steps. -/
def sweepFrom (matches? : ν → Callback ω ε Bool) : Nat → Option Nat → Nat → StrictEffect κ ν ω ε Nat
  | _, none, removed => return removed
  | 0, some _, _ => refuse
  | steps + 1, some s, removed => do
    let next ← plain (ask (·.order.next? s))
    let (_, value) ← demand (·.order.get? s)
    if ← plain (call (matches? value)) then
      let _ ← alterGet (unlink · s)
      plain (count .predicateEviction)
      sweepFrom matches? steps next (removed + 1)
    else
      sweepFrom matches? steps next removed

def put (k : κ) (value : ν) : StrictEffect κ ν ω ε (Option (κ × ν)) := exclusively do
  match ← demand (find? · k) with
  | some (s, _, _) =>
    alter (setValue · s value)
    alter (touch · s)
    plain (count .update)
    return none
  | none => insertNew k value

def tryGetOrInsertWith (k : κ) (make : Callback ω ε ν) : StrictEffect κ ν ω ε ν := exclusively do
  match ← demand (find? · k) with
  | some (s, _, value) =>
    alter (touch · s)
    plain (count .hit)
    return value
  | none =>
    let value ← plain (call make)
    plain (count .miss)
    let _ ← insertNew k value
    return value

/-- An entry that has been kept must be there. -/
def tryGetOrEvict (k : κ) (update : Update ν ω ε) (evictIf : ν → Callback ω ε Bool) :
    StrictEffect κ ν ω ε (Option ν) := exclusively do
  match ← lookup k update evictIf with
  | none => return none
  | some s =>
    let (_, value) ← demand (·.order.get? s)
    return some value

def getWith (k : κ) (view : ν → Callback ω Empty α) : StrictEffect κ ν ω ε (Option α) := widen <| exclusively do
  match ← lookup k .keep fun _ => pure false with
  | none => return none
  | some s =>
    let (_, value) ← demand (·.order.get? s)
    return some (← plain (call (view value)))

def tryExistsOrEvict (k : κ) (update : Update ν ω ε) (evictIf : ν → Callback ω ε Bool) :
    StrictEffect κ ν ω ε Bool :=
  exclusively do return (← lookup k update evictIf).isSome

def remove (k : κ) : StrictEffect κ ν ω ε (Option ν) := exclusively do
  match ← alterGet (takeOut · k) with
  | none => return none
  | some (_, value) =>
    plain (count .removal)
    return some value

/-- A sweep takes as many steps as there are entries. -/
def tryRemoveIf (matches? : ν → Callback ω ε Bool) : StrictEffect κ ν ω ε Nat := exclusively do
  let front ← plain (ask (·.order.front))
  let removed ← sweepFrom matches? (← plain (ask (·.length))) front 0
  if 0 < removed then
    plain (say fun c => .swept removed c.index.size)
  return removed

end Strict

open StrictEffect

/-- Makes a call strictly; clearing a cache and looking whether a key is indexed go by no slot. -/
def Op.performStrict : Op κ ν ρ ω ε → StrictEffect κ ν ω ε (Reply κ ν ρ)
  | put k value => .evicted <$> Strict.put k value
  | get k => .found <$> widen (Strict.tryGetOrEvict k .keep fun _ => pure false)
  | getWith k view => .viewed <$> Strict.getWith k view
  | getAndUpdate k update => .found <$> widen (Strict.tryGetOrEvict k update fun _ => pure false)
  | getOrEvict k update evictIf => .found <$> widen (Strict.tryGetOrEvict k update evictIf)
  | tryGetOrEvict k update evictIf => .found <$> Strict.tryGetOrEvict k update evictIf
  | containsKey k => plain (Op.containsKey k).perform
  | existsOrEvict k update evictIf => .present <$> widen (Strict.tryExistsOrEvict k update evictIf)
  | tryExistsOrEvict k update evictIf => .present <$> Strict.tryExistsOrEvict k update evictIf
  | remove k => .found <$> Strict.remove k
  | removeIf matches? => .removed <$> widen (Strict.tryRemoveIf matches?)
  | tryRemoveIf matches? => .removed <$> Strict.tryRemoveIf matches?
  | getOrInsertWith k make => .value <$> widen (Strict.tryGetOrInsertWith k make)
  | tryGetOrInsertWith k make => .value <$> Strict.tryGetOrInsertWith k make
  | clear => plain Op.clear.perform

/-- Makes calls strictly in turn. -/
def Op.runStrict (w : World κ ν ω) : List (Op κ ν ρ ω ε) → Option (List (Outcome κ ν ρ ε) × World κ ν ω)
  | [] => some ([], w)
  | op :: ops => do
    let (outcome, w) ← op.performStrict w
    let (outcomes, w) ← Op.runStrict w ops
    return (outcome :: outcomes, w)

end Cache

end RecencyCache
