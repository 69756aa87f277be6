import RecencyCache.Fault

/-!
# Values in a script

The values that a script stores: numbers of 64 bits and texts.  Sums and products wrap; an increment does not, and
the greatest number has none.
-/

namespace RecencyCache.Script

/-- A number of 64 bits or a text. -/
inductive Value where
  | int (n : Int64)
  | text (s : String)
deriving DecidableEq, Inhabited

namespace Value

def add (n : Int64) : Value → Value
  | int m => int (m + n)
  | text s => text s

/-- Adds one to a number, or stops where that leaves the word; a text stays. -/
def increment : Value → Except Fault Value
  | int m => if m < Int64.maxValue then .ok (int (m + 1)) else .error .addOverflow
  | text s => .ok (text s)

def mul (n : Int64) : Value → Value
  | int m => int (m * n)
  | text s => text s

def append (tail : String) : Value → Value
  | int m => int m
  | text s => text (s ++ tail)

/-- Numbers in ascending order, then texts in that of their characters. -/
def le : Value → Value → Bool
  | int m, int n => m ≤ n
  | int _, text _ => true
  | text _, int _ => false
  | text s, text t => s ≤ t

end Value

end RecencyCache.Script
