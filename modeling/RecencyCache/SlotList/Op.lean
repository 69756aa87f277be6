import RecencyCache.SlotList.Basic

/-!
# Operations on a slot list as data

An `Op` names one operation with its arguments, `perform` carries it out, and a session is a list of them.  Slots are
not checked beforehand, so a session may name slots that were never given out or are vacant again.
-/

namespace RecencyCache

namespace SlotList

inductive Op (α : Type) where
  | pushFront (value : α)
  | moveToFront (s : Nat)
  | remove (s : Nat)
  | get (s : Nat)
  | set (s : Nat) (value : α)
  | next (s : Nat)
  | front
  | back
  | values
  | length
  | clear

inductive Reply (α : Type) where
  | done
  | slot (s : Nat)
  | slot? (s : Option Nat)
  | moved (found : Bool)
  | value? (value : Option α)
  | values (values : List α)
  | length (n : Nat)
deriving DecidableEq

namespace Op

variable {α : Type}

/-- Carries out an operation; `set` answers with the value it replaces. -/
def perform (l : SlotList α) : Op α → Reply α × SlotList α
  | pushFront value => let (s, l) := l.pushFront value; (.slot s, l)
  | moveToFront s => let (found, l) := l.moveToFront s; (.moved found, l)
  | remove s => let (value, l) := l.remove s; (.value? value, l)
  | get s => (.value? (l.get? s), l)
  | set s value => (.value? (l.get? s), l.set s value)
  | next s => (.slot? (l.next? s), l)
  | front => (.slot? l.front, l)
  | back => (.slot? l.back, l)
  | values => (.values l.toList, l)
  | length => (.length l.length, l)
  | clear => (.done, l.clear)

/-- Carries out operations in turn: all answers, and the list left behind. -/
def performAll (l : SlotList α) : List (Op α) → List (Reply α) × SlotList α
  | [] => ([], l)
  | op :: ops =>
    let (reply, l) := op.perform l
    let (replies, l) := performAll l ops
    (reply :: replies, l)

end Op

end SlotList

end RecencyCache
