import RecencyCache.Cache.Basic
import RecencyCache.Callback

/-!
# Effects

An effect is a step of an operation.  It runs in a world that holds the cache, the log and the state of the caller,
and where it stops early, by a callback's failure or by a fault, the world stays as it is at that moment.  The
pieces here are the only ways in which an operation touches the world; `exclusively` holds the cache and lets go of
it however the effect ends.
-/

namespace RecencyCache

/-- A cache, what it has logged so far, and the state of its caller. -/
structure World (κ ν ω : Type) [BEq κ] [Hashable κ] where
  cache : Cache κ ν
  log : Array Event
  caller : ω

/-- A step of an operation: it answers with an `α` or stops early. -/
abbrev Effect (κ ν ω ε α : Type) [BEq κ] [Hashable κ] : Type :=
  EStateM (Abort ε) (World κ ν ω) α

variable {κ ν ω ε α : Type} [BEq κ] [Hashable κ] [EquivBEq κ] [LawfulHashable κ]

/-- The world of a new cache, whose making is logged. -/
def World.new (config : Config) (caller : ω) : World κ ν ω :=
  { cache := .empty config, log := #[.created config], caller }

namespace Effect

def ask (f : Cache κ ν → α) : Effect κ ν ω ε α := fun w =>
  .ok (f w.cache) w

def change (f : Cache κ ν → Cache κ ν) : Effect κ ν ω ε Unit := fun w =>
  .ok () { w with cache := f w.cache }

def changeGet (f : Cache κ ν → α × Cache κ ν) : Effect κ ν ω ε α := fun w =>
  let (a, cache) := f w.cache
  .ok a { w with cache }

def count (what : Metrics.Happening) : Effect κ ν ω ε Unit := fun w =>
  match Metrics.record what w.cache.metrics with
  | .ok _ metrics => .ok () { w with cache := { w.cache with metrics } }
  | .error fault metrics => .error (.faulted fault) { w with cache := { w.cache with metrics } }

/-- Logs an event of the moment. -/
def say (event : Cache κ ν → Event) : Effect κ ν ω ε Unit := fun w =>
  .ok () { w with log := w.log.push (event w.cache) }

def call (run : Callback ω ε α) : Effect κ ν ω ε α := fun w =>
  match run w.cache.outline w.caller with
  | .ok a caller => .ok a { w with caller }
  | .error e caller => .error e.toAbort { w with caller }

/-- Runs an update on the value of the entry in a slot, in place. -/
def edit (s : Nat) (update : Update ν ω ε) : Effect κ ν ω ε Unit := fun w =>
  match w.cache.order.get? s with
  | none => .ok () w
  | some (_, value) =>
    match update w.cache.outline (value, w.caller) with
    | .ok _ (value, caller) => .ok () { w with cache := w.cache.setValue s value, caller }
    | .error e (value, caller) => .error e.toAbort { w with cache := w.cache.setValue s value, caller }

/-- Holds the cache while an effect runs, and lets go of it at the end, also where it stops early. -/
def exclusively (run : Effect κ ν ω ε α) : Effect κ ν ω ε α := fun w =>
  match run { w with cache := { w.cache with held := true } } with
  | .ok a w => .ok a { w with cache := { w.cache with held := false } }
  | .error e w => .error e { w with cache := { w.cache with held := false } }

/-- An effect whose callbacks cannot fail, where one whose callbacks can is expected. -/
def widen (run : Effect κ ν ω Empty α) : Effect κ ν ω ε α := fun w =>
  match run w with
  | .ok a w => .ok a w
  | .error e w => .error e.widen w

end Effect

end RecencyCache
