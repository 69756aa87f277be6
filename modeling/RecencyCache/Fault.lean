/-!
# Faults and aborts

A call stops early for one of two reasons: a callback reports a failure of its caller's own kind, or a fault ends
it, raised by a callback or by arithmetic that leaves the range of a word.  What stops a callback is a failure or a
message; the faults of arithmetic are those of the call itself.  A loop that runs on for longer than it may would be
a fault as well, but none does (`Cache.Op.run_ne_outOfFuel`).
-/

namespace RecencyCache

/-- An unexpected stop; `outOfFuel` is that of a loop which has not come to its end in as many steps as it may take. -/
inductive Fault where
  | raised (message : String)
  | addOverflow
  | subOverflow
  | outOfFuel
deriving DecidableEq

namespace Fault

def message : Fault → String
  | .raised message => message
  | .addOverflow => "attempt to add with overflow"
  | .subOverflow => "attempt to subtract with overflow"
  | .outOfFuel => "a loop has not come to its end"

end Fault

/-- Why a call stopped early: a callback's own failure, or a fault. -/
inductive Abort (ε : Type) where
  | failed (error : ε)
  | faulted (fault : Fault)
deriving DecidableEq

namespace Abort

/-- Where callbacks cannot fail, only faults remain, and they suit any kind of failure. -/
def widen {ε : Type} : Abort Empty → Abort ε
  | .faulted fault => .faulted fault

end Abort

/-- Why a callback stopped early: a failure of its caller's own kind, or a fault it raised with a message. -/
inductive Stop (ε : Type) where
  | failed (error : ε)
  | raised (message : String)
deriving DecidableEq

namespace Stop

/-- What becomes of the call in which a callback stopped early. -/
def toAbort {ε : Type} : Stop ε → Abort ε
  | .failed error => .failed error
  | .raised message => .faulted (.raised message)

end Stop

end RecencyCache
