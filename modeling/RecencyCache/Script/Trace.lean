import RecencyCache.Callback
import RecencyCache.Script.Value

/-!
# Traces

The callbacks of a script write down that they ran, and on what.  The trace is the state they share within a step;
it also numbers the invocations of a predicate that runs more than once.
-/

namespace RecencyCache.Script

/-- What a callback writes down. -/
inductive Note where
  /-- A lookup offered the value for eviction. -/
  | evictIf (value : Value)
  /-- An update was given the value. -/
  | update (value : Value)
  /-- A sweep offered the value. -/
  | predicate (value : Value)
  /-- A factory was asked for a value. -/
  | make
  /-- A view was given the value. -/
  | view (value : Value)
  /-- The cache rendered so. -/
  | rendering (shown : String)
deriving DecidableEq

/-- What the callbacks of a step have written down, and how often its predicate was asked by a sweep. -/
structure Trace where
  notes : Array Note := #[]
  invocations : Nat := 0

/-- A callback of a script; it fails with a message. -/
abbrev Scripted (α : Type) : Type :=
  Callback Trace String α

namespace Scripted

variable {ω α : Type}

def note (n : Note) : Scripted Unit := fun _ trace =>
  .ok () { trace with notes := trace.notes.push n }

def noteRendering (layout : Outline → String) : Scripted Unit := fun shown trace =>
  .ok () { trace with notes := trace.notes.push (.rendering (layout shown)) }

/-- The number of this invocation of a predicate, from zero on. -/
def nextInvocation : Scripted Nat := fun _ trace =>
  .ok trace.invocations { trace with invocations := trace.invocations + 1 }

def fail (message : String) : Callback ω String α := fun _ world =>
  .error (.failed message) world

def raise (message : String) : Callback ω String α := fun _ world =>
  .error (.raised message) world

/-- A callback where none may fail: what would have been a failure is a fault. -/
def firm (run : Callback ω String α) : Callback ω Empty α := fun shown world =>
  match run shown world with
  | .ok a world => .ok a world
  | .error (.failed message) world | .error (.raised message) world => .error (.raised message) world

end Scripted

end RecencyCache.Script
