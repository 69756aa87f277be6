import Std.Data.TreeMap
import RecencyCache.Metrics.Basic

/-!
# Reports

A report names the counters and the rates that follow from them, in the order of their names.  Misses are what is
left of the requests after the hits; where the hits outnumber the requests there is no such number, and asking for
it is a fault.
-/

namespace RecencyCache

/-- Named figures in the order of their names. -/
abbrev Report : Type :=
  Std.TreeMap String Float

namespace Metrics

/-- The name of the replacement policy that the counters belong to. -/
def algorithm : String :=
  "LRU"

/-- Lookups that found nothing, or found an entry and dropped it. -/
def misses (m : Metrics) : Except Fault UInt64 :=
  if m.hits ≤ m.requests then .ok (m.requests - m.hits) else .error .subOverflow

def rate (part whole : UInt64) : Float :=
  part.toFloat / whole.toFloat

/-- The share of the lookups that hit; zero before the first lookup. -/
def hitRate (m : Metrics) : Float :=
  if 0 < m.requests then rate m.hits m.requests else 0

/-- The share of the lookups that missed; zero before the first lookup. -/
def missRate (m : Metrics) : Except Fault Float :=
  if 0 < m.requests then return rate (← m.misses) m.requests else return 0

/-- The report on the counters that any cache has; there is no eviction rate before the first lookup. -/
def coreReport (m : Metrics) : Except Fault Report := do
  let misses ← m.misses
  let missRate ← m.missRate
  let figures : List (String × Float) := [
    ("cache_hits", m.hits.toFloat),
    ("cache_misses", misses.toFloat),
    ("evictions", m.evictions.toFloat),
    ("insertions", m.insertions.toFloat),
    ("requests", m.requests.toFloat),
    ("updates", m.updates.toFloat),
    ("hit_rate", m.hitRate),
    ("miss_rate", missRate)]
  let rates : List (String × Float) :=
    if 0 < m.requests then [("eviction_rate", rate m.evictions m.requests)] else []
  return .ofList (figures ++ rates)

def report (m : Metrics) : Except Fault Report := do
  let core ← m.coreReport
  return (core.insert "predicate_evictions" m.predicateEvictions.toFloat).insert "removals" m.removals.toFloat

end Metrics

end RecencyCache
