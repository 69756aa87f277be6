import RecencyCache.Outline

/-!
# Configurations

A configuration fixes how many entries a cache holds at most.  The number is a word of 64 bits and never zero, so
a configured cache has room for at least one entry; `Config.ofCapacity` refuses zero.
-/

namespace RecencyCache

/-- Why a configuration is refused. -/
inductive ConfigError where
  | zeroCapacity
deriving DecidableEq

namespace ConfigError

def name : ConfigError → String
  | .zeroCapacity => "ZeroCapacity"

def message : ConfigError → String
  | .zeroCapacity => "cache capacity must be greater than zero"

end ConfigError

/-- How many entries a cache holds at most: at least one. -/
structure Config where
  capacity : UInt64
  capacity_pos : 0 < capacity
deriving DecidableEq

namespace Config

/-- The configuration of a capacity, which must not be zero. -/
def ofCapacity (capacity : UInt64) : Except ConfigError Config :=
  if h : 0 < capacity then .ok ⟨capacity, h⟩ else .error .zeroCapacity

theorem ofCapacity_eq_error_iff {capacity : UInt64} {e : ConfigError} :
    ofCapacity capacity = .error e ↔ capacity = 0 := by
  unfold ofCapacity
  split
  · rename_i h
    exact ⟨fun h' => (nomatch h'), fun h' => absurd (h' ▸ h) (by decide)⟩
  · rename_i h
    have h0 : capacity = 0 := UInt64.le_zero_iff.1 (UInt64.not_lt.1 h)
    cases e
    exact ⟨fun _ => h0, fun _ => rfl⟩

/-- The capacity as a number of entries. -/
def limit (config : Config) : Nat :=
  config.capacity.toNat

theorem limit_pos (config : Config) : 0 < config.limit :=
  UInt64.lt_iff_toNat_lt.1 config.capacity_pos

theorem limit_lt (config : Config) : config.limit < UInt64.size :=
  config.capacity.toNat_lt

def outline (config : Config) : Outline :=
  .record "LruCacheConfig" [("capacity", .number config.limit)]

end Config

end RecencyCache
