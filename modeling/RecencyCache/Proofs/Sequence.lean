import RecencyCache.Cache.Op

/-!
# The plain sequence

The machine that a cache is compared with: its whole state is a list of keys and values, most recently touched first,
and every operation is written down on that list alone.  A turn tells how an operation ends, what the list and the
caller's state are afterwards, what happened that is worth counting, and what is worth logging; nothing overflows.
-/

namespace RecencyCache

namespace Sequence

open Cache (Op Reply Outcome)
open Metrics (Happening)

/-- What one operation on a sequence comes to. -/
structure Turn (κ ν ω ε α : Type) where
  outcome : Except (Abort ε) α
  entries : List (κ × ν)
  caller : ω
  counted : List Happening := []
  logged : List Event := []

namespace Turn

variable {κ ν ω ε α β γ : Type}

def map (f : α → β) (t : Turn κ ν ω ε α) : Turn κ ν ω ε β :=
  { t with outcome := t.outcome.map f }

/-- A turn whose callbacks cannot fail, among turns whose callbacks can. -/
def widen (t : Turn κ ν ω Empty α) : Turn κ ν ω ε α :=
  { t with outcome := t.outcome.mapError Abort.widen }

theorem map_id (t : Turn κ ν ω ε α) : t.map id = t := by
  obtain ⟨outcome, _⟩ := t
  cases outcome <;> rfl

theorem map_map (t : Turn κ ν ω ε α) (f : α → β) (g : β → γ) : (t.map f).map g = t.map fun a => g (f a) := by
  obtain ⟨outcome, _⟩ := t
  cases outcome <;> rfl

theorem widen_map (t : Turn κ ν ω Empty α) (f : α → β) : (t.map f).widen = (t.widen.map f : Turn κ ν ω ε β) := by
  obtain ⟨outcome, _⟩ := t
  cases outcome <;> rfl

/-- Goes on after a turn that did not stop early. -/
def andThen (t : Turn κ ν ω ε α) (f : α → List (κ × ν) → ω → Turn κ ν ω ε β) : Turn κ ν ω ε β :=
  match t.outcome with
  | .error e => { t with outcome := .error e }
  | .ok a =>
    let t' := f a t.entries t.caller
    { t' with counted := t.counted ++ t'.counted, logged := t.logged ++ t'.logged }

/-- Keeps pairs in front of those of a turn. -/
def keeping (es : List (κ × ν)) (t : Turn κ ν ω ε α) : Turn κ ν ω ε α :=
  { t with entries := es ++ t.entries }

theorem keeping_keeping (es es' : List (κ × ν)) (t : Turn κ ν ω ε α) :
    (t.keeping es').keeping es = t.keeping (es ++ es') := by
  simp [keeping]

/-- Counts a happening before a turn. -/
def counting (what : Happening) (t : Turn κ ν ω ε α) : Turn κ ν ω ε α :=
  { t with counted := what :: t.counted }

end Turn

/-- How often happenings ask for a counter to be bumped. -/
def tally (counted : List Happening) (c : Counter) : Nat :=
  (counted.flatMap Happening.counters).count c

theorem tally_cons (what : Happening) (counted : List Happening) (c : Counter) :
    tally (what :: counted) c = what.counters.count c + tally counted c := by
  rw [tally, List.flatMap_cons, List.count_append]
  rfl

theorem tally_append (counted counted' : List Happening) (c : Counter) :
    tally (counted ++ counted') c = tally counted c + tally counted' c := by
  rw [tally, List.flatMap_append, List.count_append]
  rfl

theorem tally_replicate (n : Nat) (what : Happening) (c : Counter) :
    tally (List.replicate n what) c = n * what.counters.count c := by
  induction n with
  | zero =>
    rw [Nat.zero_mul]
    rfl
  | succ n ih => rw [List.replicate_succ, tally_cons, ih, Nat.succ_mul, Nat.add_comm]

/-- All that a callback sees of the cache in which it runs. -/
def locked : Outline :=
  .record "BoundedLruCache" [("segment", .text "\"<locked>\"")]

variable {κ ν ρ ω ε : Type} [BEq κ]

/-! ### Storing -/

/-- Puts a new pair in front; in a full list the last pair goes first, and is the answer. -/
def insert (limit : Nat) (k : κ) (value : ν) (es : List (κ × ν)) (caller : ω) : Turn κ ν ω ε (Option (κ × ν)) :=
  if limit ≤ es.length then
    { outcome := .ok es.getLast?, entries := (k, value) :: es.dropLast, caller
      counted := [.eviction, .insertion], logged := [.evictedOldest (es.length - 1)] }
  else
    { outcome := .ok none, entries := (k, value) :: es, caller, counted := [.insertion] }

/-- Gives a key a value and puts its pair in front; a key that is there stays as it was stored. -/
def put (limit : Nat) (k : κ) (value : ν) (es : List (κ × ν)) (caller : ω) : Turn κ ν ω ε (Option (κ × ν)) :=
  match es.find? (·.1 == k) with
  | some (key, _) =>
    { outcome := .ok none, entries := (key, value) :: es.eraseP (·.1 == k), caller, counted := [.update] }
  | none => insert limit k value es caller

/-- The value of a key, whose pair is put in front, or one that is made and inserted. -/
def getOrInsertWith (limit : Nat) (k : κ) (make : Callback ω ε ν) (es : List (κ × ν)) (caller : ω) :
    Turn κ ν ω ε ν :=
  match es.find? (·.1 == k) with
  | some (key, value) =>
    { outcome := .ok value, entries := (key, value) :: es.eraseP (·.1 == k), caller, counted := [.hit] }
  | none =>
    match make locked caller with
    | .error e caller => { outcome := .error e.toAbort, entries := es, caller }
    | .ok value caller =>
      ((insert limit k value es caller).map fun _ => value).counting .miss

/-! ### Looking up -/

/-- Replaces the value of a key where its pair stands. -/
def setValue (k : κ) (value : ν) : List (κ × ν) → List (κ × ν)
  | [] => []
  | e :: es => if e.1 == k then (e.1, value) :: es else e :: setValue k value es

/-- Offers the value of a key to `evictIf`, and drops the pair if it says so, else to `update`, and puts the pair in
front; the answer is the value then. -/
def lookup (k : κ) (update : Update ν ω ε) (evictIf : ν → Callback ω ε Bool) (es : List (κ × ν)) (caller : ω) :
    Turn κ ν ω ε (Option ν) :=
  match es.find? (·.1 == k) with
  | none => { outcome := .ok none, entries := es, caller, counted := [.miss] }
  | some (key, value) =>
    match evictIf value locked caller with
    | .error e caller => { outcome := .error e.toAbort, entries := es, caller }
    | .ok true caller =>
      let rest := es.eraseP (·.1 == k)
      { outcome := .ok none, entries := rest, caller
        counted := [.predicateEviction, .miss], logged := [.evictedOnLookup rest.length] }
    | .ok false caller =>
      match update locked (value, caller) with
      | .error e (value, caller) => { outcome := .error e.toAbort, entries := setValue k value es, caller }
      | .ok _ (value, caller) =>
        { outcome := .ok (some value), entries := (key, value) :: es.eraseP (·.1 == k), caller, counted := [.hit] }

/-- The predicate that keeps every entry. -/
def keepAll (_ : ν) : Callback ω ε Bool :=
  pure false

/-- Shows the value of a key to `view` after its pair has been put in front. -/
def getWith (k : κ) (view : ν → Callback ω ε ρ) (es : List (κ × ν)) (caller : ω) : Turn κ ν ω ε (Option ρ) :=
  (lookup k .keep keepAll es caller).andThen fun value es caller =>
    match value with
    | none => { outcome := .ok none, entries := es, caller }
    | some value =>
      match view value locked caller with
      | .error e caller => { outcome := .error e.toAbort, entries := es, caller }
      | .ok answer caller => { outcome := .ok (some answer), entries := es, caller }

/-! ### Removing -/

/-- Drops the pair of a key; answers with its value. -/
def remove (k : κ) (es : List (κ × ν)) (caller : ω) : Turn κ ν ω ε (Option ν) :=
  match es.find? (·.1 == k) with
  | none => { outcome := .ok none, entries := es, caller }
  | some (_, value) =>
    { outcome := .ok (some value), entries := es.eraseP (·.1 == k), caller, counted := [.removal] }

/-- Offers the values in turn to a predicate and drops the pairs that it matches, until it stops early. -/
def sweep (matches? : ν → Callback ω ε Bool) : List (κ × ν) → ω → Turn κ ν ω ε Nat
  | [], caller => { outcome := .ok 0, entries := [], caller }
  | e :: es, caller =>
    match matches? e.2 locked caller with
    | .error stop caller => { outcome := .error stop.toAbort, entries := e :: es, caller }
    | .ok true caller => ((sweep matches? es caller).map (· + 1)).counting .predicateEviction
    | .ok false caller => (sweep matches? es caller).keeping [e]

/-- Offers every value once to a predicate and drops the pairs that it matches; answers with their number. -/
def removeIf (matches? : ν → Callback ω ε Bool) (es : List (κ × ν)) (caller : ω) : Turn κ ν ω ε Nat :=
  (sweep matches? es caller).andThen fun removed es caller =>
    { outcome := .ok removed, entries := es, caller
      logged := if 0 < removed then [.swept removed es.length] else [] }

/-! ### Turns -/

/-- The turn of an operation in a list of at most `limit` pairs. -/
def step (limit : Nat) (op : Op κ ν ρ ω ε) (es : List (κ × ν)) (caller : ω) : Turn κ ν ω ε (Reply κ ν ρ) :=
  match op with
  | .put k value => (put limit k value es caller).map .evicted
  | .get k => (lookup k .keep keepAll es caller).widen.map .found
  | .getWith k view => (getWith k view es caller).widen.map .viewed
  | .getAndUpdate k update => (lookup k update keepAll es caller).widen.map .found
  | .getOrEvict k update evictIf => (lookup k update evictIf es caller).widen.map .found
  | .tryGetOrEvict k update evictIf => (lookup k update evictIf es caller).map .found
  | .containsKey k => { outcome := .ok (.present (es.any (·.1 == k))), entries := es, caller }
  | .existsOrEvict k update evictIf =>
    (lookup k update evictIf es caller).widen.map fun value => .present value.isSome
  | .tryExistsOrEvict k update evictIf =>
    (lookup k update evictIf es caller).map fun value => .present value.isSome
  | .remove k => (remove k es caller).map .found
  | .removeIf matches? => (removeIf matches? es caller).widen.map .removed
  | .tryRemoveIf matches? => (removeIf matches? es caller).map .removed
  | .getOrInsertWith k make => (getOrInsertWith limit k make es caller).widen.map .value
  | .tryGetOrInsertWith k make => (getOrInsertWith limit k make es caller).map .value
  | .clear => { outcome := .ok .done, entries := [], caller, logged := [.clearing es.length] }

/-- The turns of operations made one after the other. -/
def run (limit : Nat) (es : List (κ × ν)) (caller : ω) : List (Op κ ν ρ ω ε) → List (Turn κ ν ω ε (Reply κ ν ρ))
  | [] => []
  | op :: ops =>
    let t := step limit op es caller
    t :: run limit t.entries t.caller ops

end Sequence

end RecencyCache
