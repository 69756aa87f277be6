import RecencyCache.Script.Call

/-!
# Batches

A batch makes one kind of call for a row of numbers, each number being its own key, and tells of the calls that
brought something: how many there were, and what the first and the last of them brought.
-/

namespace RecencyCache.Script

inductive BatchKind where
  /-- Stores each number under itself. -/
  | put
  | get
  | remove
  /-- Adds one to the value; to leave the word is a fault, which ends the batch. -/
  | increment
  | containsKey
  /-- The value of each number, its square being made if there is none. -/
  | memo

/-- A kind of call, and the row of numbers to make it for. -/
structure Batch where
  kind : BatchKind
  start : Int64
  count : Nat
  step : Int64

/-- What a call of a batch brought. -/
inductive Item where
  | entry (key : Key) (value : Value)
  | value (value : Value)

/-- How many calls brought something, and what the first and the last of them brought. -/
structure Tally where
  counted : Nat := 0
  first : Option Item := none
  last : Option Item := none

def Tally.add (t : Tally) : Option Item → Tally
  | none => t
  | some item => { counted := t.counted + 1, first := t.first.or (some item), last := some item }

variable {κ : Type} [KeyForm κ]

namespace BatchKind

/-- How many notes the callbacks have made so far. -/
def noted : Effect κ Value Trace String Nat := fun w =>
  .ok w.caller.notes.size w

/-- The update that adds one to a value; where that is a fault the value stays. -/
def incrementing : Update Value Trace Empty := fun _ (value, trace) =>
  match value.increment with
  | .ok value => .ok () (value, trace)
  | .error fault => .error (.raised fault.message) (value, trace)

/-- Makes the call for one number; answers with what it brought. -/
def call (kind : BatchKind) (n : Int64) : Effect κ Value Trace String (Option Item) := do
  let k : κ := KeyForm.ofKey (.int n)
  match kind with
  | put => return (← Cache.put k (.int n)).map fun (key, value) => .entry (KeyForm.toKey key) value
  | get => return (← Cache.get k).map .value
  | remove => return (← Cache.remove k).map .value
  | increment => return (← Cache.getAndUpdate k incrementing).map .value
  | containsKey => return if ← Cache.containsKey k then some (.value (.int n)) else none
  | memo =>
    let before ← noted
    let value ← Cache.getOrInsertWith k (Scripted.firm (Factory.make ⟨false, .value (.int (n * n))⟩))
    return if before < (← noted) then some (.value value) else none

end BatchKind

namespace Batch

/-- Makes the calls for so many numbers from one on, after others that have been accounted for. -/
def runFrom (kind : BatchKind) (step : Int64) :
    Nat → Int64 → Tally → Effect κ Value Trace String Tally
  | 0, _, tally => return tally
  | count + 1, n, tally => do
    let item ← kind.call n
    runFrom kind step count (n + step) (tally.add item)

def run (b : Batch) : Effect κ Value Trace String Tally :=
  runFrom b.kind b.step b.count b.start {}

end Batch

end RecencyCache.Script
