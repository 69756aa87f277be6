import RecencyCache.Script.Trace

/-!
# Updates, factories and views in a script

An update is a list of edits made in turn on the value in place; one that stops early keeps the edits before it.  A
factory makes a value, and a view tells something about one.
-/

namespace RecencyCache.Script

/-! ### Updates -/

inductive Edit where
  | set (value : Value)
  | add (n : Int64)
  | mul (n : Int64)
  | append (tail : String)
  /-- Writes down how the cache renders, over several lines if `indented`. -/
  | peek (indented : Bool)
  | fail (message : String)
  | raise (message : String)

namespace Edit

/-- A callback that leaves the value alone. -/
def beside (run : Scripted Unit) : Update Value Trace String := fun shown (value, trace) =>
  match run shown trace with
  | .ok _ trace => .ok () (value, trace)
  | .error e trace => .error e (value, trace)

def alter (f : Value → Value) : Update Value Trace String := fun _ (value, trace) =>
  .ok () (f value, trace)

def apply : Edit → Update Value Trace String
  | set value => alter fun _ => value
  | add n => alter (Value.add n)
  | mul n => alter (Value.mul n)
  | append tail => alter (Value.append tail)
  | peek indented => beside (Scripted.noteRendering fun shown => if indented then shown.indented else shown.inline)
  | fail message => Scripted.fail message
  | raise message => Scripted.raise message

/-- Makes edits in turn, after writing down the value as it was. -/
def applyAll (edits : List Edit) : Callback (Value × Trace) String Unit := do
  beside (Scripted.note (.update (← get).1))
  edits.forM apply

end Edit

/-! ### Factories -/

inductive Product where
  | value (value : Value)
  | fail (message : String)
  | raise (message : String)

/-- A factory, which may look at the cache first. -/
structure Factory where
  peek : Bool
  product : Product

def Factory.make (f : Factory) : Scripted Value := do
  Scripted.note .make
  if f.peek then
    Scripted.noteRendering Outline.inline
  match f.product with
  | .value value => return value
  | .fail message => Scripted.fail message
  | .raise message => Scripted.raise message

/-! ### Views -/

/-- What is asked about a value. -/
inductive Query where
  | value
  /-- How many bytes a text has in UTF-8. -/
  | bytes
  | isInt
  | raise (message : String)

/-- What a view tells. -/
inductive View where
  | value (value : Value)
  | bytes (n : Option Nat)
  | isInt (answer : Bool)

/-- Tells what is asked about a value; a number has no bytes. -/
def Query.view (q : Query) (value : Value) : Scripted View := do
  Scripted.note (.view value)
  match q, value with
  | .value, value => return .value value
  | .bytes, .int _ => return .bytes none
  | .bytes, .text s => return .bytes (some s.utf8ByteSize)
  | .isInt, .int _ => return .isInt true
  | .isInt, .text _ => return .isInt false
  | .raise message, _ => Scripted.raise message

end RecencyCache.Script
