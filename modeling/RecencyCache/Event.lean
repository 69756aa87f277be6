import RecencyCache.Config

/-!
# Log events

What a cache tells its log: that it was made, that it is being cleared, and that entries left it.  The numbers in
the messages are those at the moment of logging.
-/

namespace RecencyCache

/-- How much attention an event asks for. -/
inductive Level where
  | debug
  | trace
deriving DecidableEq

def Level.name : Level → String
  | .debug => "DEBUG"
  | .trace => "TRACE"

/-- Something a cache logs. -/
inductive Event where
  /-- A cache was made. -/
  | created (config : Config)
  /-- A number of entries is about to be dropped. -/
  | clearing (entries : Nat)
  /-- The entry touched longest ago made room; so many are left. -/
  | evictedOldest (left : Nat)
  /-- A lookup dropped the entry it found; so many are left. -/
  | evictedOnLookup (left : Nat)
  /-- A sweep dropped entries; so many are left. -/
  | swept (removed left : Nat)
deriving DecidableEq

namespace Event

def level : Event → Level
  | created _ | clearing _ => .debug
  | evictedOldest _ | evictedOnLookup _ | swept _ _ => .trace

def message : Event → String
  | created config => "creating bounded LRU cache: " ++ config.outline.inline
  | clearing entries => "clearing bounded LRU cache with " ++ Nat.repr entries ++ " entries"
  | evictedOldest left => "evicted least recently used entry; len=" ++ Nat.repr left
  | evictedOnLookup left => "entry evicted on lookup; len=" ++ Nat.repr left
  | swept removed left => "removed " ++ Nat.repr removed ++ " entries by predicate; len=" ++ Nat.repr left

end Event

end RecencyCache
