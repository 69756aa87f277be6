import RecencyCache.Fault
import RecencyCache.Outline

/-!
# Metrics

Seven counters of 64 bits tell what happened to a cache.  An increment past the last word is a fault, and what was
counted before it stays; a hit counts the request before the hit, so hits never outnumber requests.
-/

namespace RecencyCache

/-- The counters of a cache. -/
structure Metrics where
  /-- lookups made -/
  requests : UInt64 := 0
  /-- lookups that found an entry and kept it -/
  hits : UInt64 := 0
  /-- new entries -/
  insertions : UInt64 := 0
  /-- values replaced by a `put` -/
  updates : UInt64 := 0
  /-- entries dropped for lack of room -/
  evictions : UInt64 := 0
  /-- entries dropped because a predicate asked for it -/
  predicateEvictions : UInt64 := 0
  /-- entries removed by key -/
  removals : UInt64 := 0
deriving DecidableEq, Inhabited

inductive Counter where
  | requests
  | hits
  | insertions
  | updates
  | evictions
  | predicateEvictions
  | removals
deriving DecidableEq

namespace Metrics

def zero : Metrics :=
  {}

def get (m : Metrics) : Counter → UInt64
  | .requests => m.requests
  | .hits => m.hits
  | .insertions => m.insertions
  | .updates => m.updates
  | .evictions => m.evictions
  | .predicateEvictions => m.predicateEvictions
  | .removals => m.removals

def set (m : Metrics) (c : Counter) (n : UInt64) : Metrics :=
  match c with
  | .requests => { m with requests := n }
  | .hits => { m with hits := n }
  | .insertions => { m with insertions := n }
  | .updates => { m with updates := n }
  | .evictions => { m with evictions := n }
  | .predicateEvictions => { m with predicateEvictions := n }
  | .removals => { m with removals := n }

@[simp] theorem get_set (m : Metrics) (c : Counter) (n : UInt64) : (m.set c n).get c = n := by
  cases c <;> rfl

theorem get_set_of_ne {c d : Counter} (h : c ≠ d) (m : Metrics) (n : UInt64) : (m.set c n).get d = m.get d := by
  cases c <;> cases d <;> simp_all [get, set]

/-- Adds one to a counter, or stops where that leaves the word. -/
def bump (c : Counter) : EStateM Fault Metrics Unit := fun m =>
  if (m.get c).toNat + 1 < UInt64.size then .ok () (m.set c (m.get c + 1)) else .error .addOverflow m

theorem bump_of_lt {c : Counter} {m : Metrics} (h : (m.get c).toNat + 1 < UInt64.size) :
    bump c m = .ok () (m.set c (m.get c + 1)) :=
  if_pos h

theorem bump_of_le {c : Counter} {m : Metrics} (h : UInt64.size ≤ (m.get c).toNat + 1) :
    bump c m = .error .addOverflow m :=
  if_neg (by omega)

inductive Happening where
  | hit
  | miss
  | insertion
  | update
  | eviction
  | predicateEviction
  | removal
deriving DecidableEq

/-- The counters of a happening, in the order in which they are bumped. -/
def Happening.counters : Happening → List Counter
  | hit => [.requests, .hits]
  | miss => [.requests]
  | insertion => [.insertions]
  | update => [.updates]
  | eviction => [.evictions]
  | predicateEviction => [.predicateEvictions]
  | removal => [.removals]

/-- Counts a happening; a fault keeps what was bumped before it. -/
def record (what : Happening) : EStateM Fault Metrics Unit :=
  what.counters.forM bump

/-- The counters that any cache has at zero, the two of its own as they are. -/
def resetCore (m : Metrics) : Metrics :=
  { zero with predicateEvictions := m.predicateEvictions, removals := m.removals }

def outline (m : Metrics) : Outline :=
  let number (n : UInt64) : Outline := .number n.toNat
  .record "LruCacheMetrics" [
    ("core", .record "CoreCacheMetrics" [
      ("requests", number m.requests),
      ("cache_hits", number m.hits),
      ("insertions", number m.insertions),
      ("updates", number m.updates),
      ("evictions", number m.evictions)]),
    ("predicate_evictions", number m.predicateEvictions),
    ("removals", number m.removals)]

/-- All counters, the five of any cache first. -/
def counts (m : Metrics) : List UInt64 :=
  [m.requests, m.hits, m.insertions, m.updates, m.evictions, m.predicateEvictions, m.removals]

inductive Op where
  | record (what : Happening)
  | reset
  | resetCore
deriving DecidableEq

def Op.perform : Op → EStateM Fault Metrics Unit
  | record what => Metrics.record what
  | reset => fun _ => .ok () zero
  | resetCore => fun m => .ok () m.resetCore

end Metrics

end RecencyCache
