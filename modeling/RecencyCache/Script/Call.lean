import RecencyCache.Cache.Op
import RecencyCache.Key
import RecencyCache.Script.Callbacks
import RecencyCache.Script.Predicate

/-!
# Calls in a script

A call of a script is an operation on a cache whose callbacks are written down.  `Call.op` makes the operation of it,
for keys of any form; in the calls that answer with no failure, a callback that fails raises a fault instead.
-/

namespace RecencyCache.Script

/-- A call on a cache with its callbacks written down. -/
inductive Call where
  | put (k : Key) (value : Value)
  | get (k : Key)
  | getWith (k : Key) (query : Query)
  | getAndUpdate (k : Key) (edits : List Edit)
  | getOrEvict (k : Key) (edits : List Edit) (evictIf : Predicate)
  | tryGetOrEvict (k : Key) (edits : List Edit) (evictIf : Predicate)
  | containsKey (k : Key)
  | existsOrEvict (k : Key) (edits : List Edit) (evictIf : Predicate)
  | tryExistsOrEvict (k : Key) (edits : List Edit) (evictIf : Predicate)
  | remove (k : Key)
  | removeIf (p : Predicate)
  | tryRemoveIf (p : Predicate)
  | getOrInsertWith (k : Key) (factory : Factory)
  | tryGetOrInsertWith (k : Key) (factory : Factory)
  | clear

namespace Call

/-- Whether the answer tells success from failure. -/
def mayFail : Call → Bool
  | tryGetOrEvict .. | tryExistsOrEvict .. | tryRemoveIf .. | tryGetOrInsertWith .. => true
  | _ => false

variable {κ : Type} [KeyForm κ]

/-- The operation that a call stands for. -/
def op : Call → Cache.Op κ Value View Trace String
  | put k value => .put (KeyForm.ofKey k) value
  | get k => .get (KeyForm.ofKey k)
  | getWith k query => .getWith (KeyForm.ofKey k) fun value => Scripted.firm (query.view value)
  | getAndUpdate k edits => .getAndUpdate (KeyForm.ofKey k) (Scripted.firm (Edit.applyAll edits))
  | getOrEvict k edits p =>
    .getOrEvict (KeyForm.ofKey k) (Scripted.firm (Edit.applyAll edits)) fun value => Scripted.firm (p.evictIf value)
  | tryGetOrEvict k edits p => .tryGetOrEvict (KeyForm.ofKey k) (Edit.applyAll edits) p.evictIf
  | containsKey k => .containsKey (KeyForm.ofKey k)
  | existsOrEvict k edits p =>
    .existsOrEvict (KeyForm.ofKey k) (Scripted.firm (Edit.applyAll edits)) fun value => Scripted.firm (p.evictIf value)
  | tryExistsOrEvict k edits p => .tryExistsOrEvict (KeyForm.ofKey k) (Edit.applyAll edits) p.evictIf
  | remove k => .remove (KeyForm.ofKey k)
  | removeIf p => .removeIf fun value => Scripted.firm (p.sweep value)
  | tryRemoveIf p => .tryRemoveIf p.sweep
  | getOrInsertWith k factory => .getOrInsertWith (KeyForm.ofKey k) (Scripted.firm factory.make)
  | tryGetOrInsertWith k factory => .tryGetOrInsertWith (KeyForm.ofKey k) factory.make
  | clear => .clear

end Call

end RecencyCache.Script
