import RecencyCache.Fault
import RecencyCache.Outline

/-!
# Callbacks

A callback is a piece of the caller's own program that an operation runs half way.  It sees how the cache renders
at that moment, reads and writes the caller's state, and ends with an answer, a failure or a fault; whatever it
wrote before stays.
-/

namespace RecencyCache

/-- A piece of the caller's program over a state `ω` that may fail with an `ε`. -/
abbrev Callback (ω ε α : Type) : Type :=
  ReaderT Outline (EStateM (Stop ε) ω) α

/-- A callback that also edits a value in place; an edit made before it stops early stays. -/
abbrev Update (ν ω ε : Type) : Type :=
  Callback (ν × ω) ε Unit

def Update.keep {ν ω ε : Type} : Update ν ω ε := fun _ world =>
  .ok () world

end RecencyCache
