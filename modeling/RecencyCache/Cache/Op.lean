import RecencyCache.Cache.Operations

/-!
# Operations on a cache as data

An `Op` is one call on a cache with its key, values and callbacks; `perform` makes the call.  A run makes a list of
calls in turn and goes on after one that stopped early, with whatever it left behind.
-/

namespace RecencyCache

namespace Cache

/-- One call on a cache: keys `κ`, values `ν`, views of type `ρ`, callbacks over a state `ω` that fail with `ε`. -/
inductive Op (κ ν ρ ω ε : Type) where
  | put (k : κ) (value : ν)
  | get (k : κ)
  | getWith (k : κ) (view : ν → Callback ω Empty ρ)
  | getAndUpdate (k : κ) (update : Update ν ω Empty)
  | getOrEvict (k : κ) (update : Update ν ω Empty) (evictIf : ν → Callback ω Empty Bool)
  | tryGetOrEvict (k : κ) (update : Update ν ω ε) (evictIf : ν → Callback ω ε Bool)
  | containsKey (k : κ)
  | existsOrEvict (k : κ) (update : Update ν ω Empty) (evictIf : ν → Callback ω Empty Bool)
  | tryExistsOrEvict (k : κ) (update : Update ν ω ε) (evictIf : ν → Callback ω ε Bool)
  | remove (k : κ)
  | removeIf (matches? : ν → Callback ω Empty Bool)
  | tryRemoveIf (matches? : ν → Callback ω ε Bool)
  | getOrInsertWith (k : κ) (make : Callback ω Empty ν)
  | tryGetOrInsertWith (k : κ) (make : Callback ω ε ν)
  | clear

inductive Reply (κ ν ρ : Type) where
  | done
  | evicted (entry : Option (κ × ν))
  | found (value : Option ν)
  | viewed (view : Option ρ)
  | present (found : Bool)
  | removed (entries : Nat)
  | value (value : ν)
deriving DecidableEq

variable {κ ν ρ ω ε : Type} [BEq κ] [Hashable κ] [EquivBEq κ] [LawfulHashable κ]

def Op.perform : Op κ ν ρ ω ε → Effect κ ν ω ε (Reply κ ν ρ)
  | put k value => .evicted <$> Cache.put k value
  | get k => .found <$> Cache.get k
  | getWith k view => .viewed <$> Cache.getWith k view
  | getAndUpdate k update => .found <$> Cache.getAndUpdate k update
  | getOrEvict k update evictIf => .found <$> Cache.getOrEvict k update evictIf
  | tryGetOrEvict k update evictIf => .found <$> Cache.tryGetOrEvict k update evictIf
  | containsKey k => .present <$> Cache.containsKey k
  | existsOrEvict k update evictIf => .present <$> Cache.existsOrEvict k update evictIf
  | tryExistsOrEvict k update evictIf => .present <$> Cache.tryExistsOrEvict k update evictIf
  | remove k => .found <$> Cache.remove k
  | removeIf matches? => .removed <$> Cache.removeIf matches?
  | tryRemoveIf matches? => .removed <$> Cache.tryRemoveIf matches?
  | getOrInsertWith k make => .value <$> Cache.getOrInsertWith k make
  | tryGetOrInsertWith k make => .value <$> Cache.tryGetOrInsertWith k make
  | clear => (fun _ => .done) <$> Cache.clear

abbrev Outcome (κ ν ρ ε : Type) : Type :=
  Except (Abort ε) (Reply κ ν ρ)

/-- Makes a call and tells how it ended. -/
def Op.apply (op : Op κ ν ρ ω ε) (w : World κ ν ω) : Outcome κ ν ρ ε × World κ ν ω :=
  match op.perform w with
  | .ok reply w => (.ok reply, w)
  | .error e w => (.error e, w)

/-- Makes calls in turn: how each ended, and the world left behind. -/
def Op.run (w : World κ ν ω) : List (Op κ ν ρ ω ε) → List (Outcome κ ν ρ ε) × World κ ν ω
  | [] => ([], w)
  | op :: ops =>
    let (outcome, w) := op.apply w
    let (outcomes, w) := Op.run w ops
    (outcome :: outcomes, w)

end Cache

end RecencyCache
