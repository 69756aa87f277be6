import RecencyCache.Script.Trace

/-!
# Predicates in a script

A predicate is asked about one value.  Apart from the value its answer may hang on how often it has been asked in
the step, and on the way it may look at the cache, fail or raise a fault.
-/

namespace RecencyCache.Script

inductive Predicate where
  | const (answer : Bool)
  | eq (value : Value)
  /-- A number below the bound. -/
  | lt (bound : Int)
  /-- A number above the bound. -/
  | gt (bound : Int)
  /-- A number whose remainder, from zero up to the modulus, is the given one. -/
  | mod (modulus remainder : Int)
  /-- A text that starts so. -/
  | startsWith (start : String)
  | not (p : Predicate)
  /-- The second where the first holds, else the third. -/
  | cond (c p q : Predicate)
  /-- The first predicate during so many invocations, then the second. -/
  | first (invocations : Nat) (p q : Predicate)
  /-- Writes down how the cache renders, then asks. -/
  | peek (p : Predicate)
  | fail (message : String)
  | raise (message : String)

namespace Predicate

/-- The answer about a value in the invocation of a number. -/
def ask (invocation : Nat) (value : Value) : Predicate → Scripted Bool
  | const answer => pure answer
  | eq other => pure (value = other)
  | lt bound => pure <| match value with
    | .int n => n.toInt < bound
    | .text _ => false
  | gt bound => pure <| match value with
    | .int n => bound < n.toInt
    | .text _ => false
  | mod modulus remainder => pure <| match value with
    | .int n => n.toInt % modulus = remainder
    | .text _ => false
  | startsWith start => pure <| match value with
    | .int _ => false
    | .text s => s.startsWith start
  | not p => do return !(← p.ask invocation value)
  | cond c p q => do if ← c.ask invocation value then p.ask invocation value else q.ask invocation value
  | first invocations p q =>
    if invocation < invocations then p.ask invocation value else q.ask invocation value
  | peek p => do
    Scripted.noteRendering Outline.inline
    p.ask invocation value
  | fail message => Scripted.fail message
  | raise message => Scripted.raise message

/-- The predicate of a lookup, which is asked once. -/
def evictIf (p : Predicate) (value : Value) : Scripted Bool := do
  Scripted.note (.evictIf value)
  p.ask 0 value

/-- The predicate of a sweep, which is asked again and again. -/
def sweep (p : Predicate) (value : Value) : Scripted Bool := do
  Scripted.note (.predicate value)
  p.ask (← Scripted.nextInvocation) value

end Predicate

end RecencyCache.Script
