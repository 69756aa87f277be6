import RecencyCache.Script.Batch

/-!
# Commands

A command is one thing to do with a cache: a call, a question about its state, or a batch.  `Command.run` carries it
out whatever comes of it, on an empty log and a new trace, so that both hold what belongs to this command.
-/

namespace RecencyCache.Script

/-- What can be asked about a cache besides calling it. -/
inductive Question where
  | size
  | report
  | snapshot
  /-- The rendering, over several lines if `indented`. -/
  | rendering (indented : Bool)

inductive Command where
  | call (call : Call)
  | ask (question : Question)
  | batch (batch : Batch)

/-- The counters of a moment and what follows from them. -/
structure Snapshot where
  metrics : Metrics
  misses : UInt64
  hitRate : Float
  missRate : Float

inductive Result where
  | reply (reply : Cache.Reply Key Value View)
  | size (length : Nat) (isEmpty : Bool) (capacity : Nat)
  | report (algorithm : String) (figures : List (String × Float))
  | snapshot (snapshot : Snapshot)
  | rendering (shown : String)
  | tally (tally : Tally)

variable {κ : Type} [KeyForm κ]

/-- A reply in terms of plain keys. -/
def Result.ofReply : Cache.Reply κ Value View → Result
  | .done => .reply .done
  | .evicted entry => .reply (.evicted (entry.map fun (key, value) => (KeyForm.toKey key, value)))
  | .found value => .reply (.found value)
  | .viewed view => .reply (.viewed view)
  | .present found => .reply (.present found)
  | .removed entries => .reply (.removed entries)
  | .value value => .reply (.value value)

def Question.answer (c : Cache κ Value) : Question → Except Fault Result
  | size => return .size c.length c.isEmpty c.capacity
  | report => return .report Metrics.algorithm (← c.metrics.report).toList
  | snapshot =>
    return .snapshot { metrics := c.metrics, misses := ← c.metrics.misses, hitRate := c.metrics.hitRate,
                       missRate := ← c.metrics.missRate }
  | rendering indented => return .rendering (if indented then c.outline.indented else c.outline.inline)

namespace Command

/-- Whether the answer tells success from failure. -/
def mayFail : Command → Bool
  | call c => c.mayFail
  | _ => false

def perform : Command → Effect κ Value Trace String Result
  | call c => return .ofReply (← c.op.perform)
  | ask q => do
    match ← Effect.ask q.answer with
    | .ok result => return result
    | .error fault => throw (.faulted fault)
  | batch b => return .tally (← b.run)

/-- Carries out a command on an empty log and a new trace, and tells what came of it. -/
def run (command : Command) (w : World κ Value Trace) : Except (Abort String) Result × World κ Value Trace :=
  match command.perform { w with log := #[], caller := {} } with
  | .ok result w => (.ok result, w)
  | .error e w => (.error e, w)

end Command

end RecencyCache.Script
