/-!
# Outlines

An outline is the structure behind a readable rendering: a named record, a list of items or plain text.  It is
written in one line by `inline`, and over several lines, four blanks per level and a comma after every part, by
`indented`.
-/

namespace RecencyCache

/-- A rendering before it is laid out. -/
inductive Outline where
  | text (shown : String)
  | record (name : String) (fields : List (String × Outline))
  | items (parts : List Outline)

namespace Outline

def number (n : Nat) : Outline :=
  .text (Nat.repr n)

mutual

/-- The rendering on one line: `Name { a: x, b: y }` and `[x, y]`. -/
def inline : Outline → String
  | .text shown => shown
  | .record name [] => name
  | .record name (field :: fields) => name ++ " \x7b " ++ ", ".intercalate (inlineFields (field :: fields)) ++ " \x7d"
  | .items parts => "[" ++ ", ".intercalate (inlineParts parts) ++ "]"

/-- The fields of a record on one line each. -/
def inlineFields : List (String × Outline) → List String
  | [] => []
  | (label, part) :: fields => (label ++ ": " ++ inline part) :: inlineFields fields

def inlineParts : List Outline → List String
  | [] => []
  | part :: parts => inline part :: inlineParts parts

end

/-- The blanks before a line at a level. -/
def margin (level : Nat) : String :=
  String.ofList (List.replicate (4 * level) ' ')

mutual

/-- The rendering over several lines whose first line stands at a level. -/
def layout (level : Nat) : Outline → String
  | .text shown => shown
  | .record name [] => name
  | .record name (field :: fields) =>
    name ++ " \x7b\n" ++ layoutFields (level + 1) (field :: fields) ++ margin level ++ "\x7d"
  | .items [] => "[]"
  | .items (part :: parts) => "[\n" ++ layoutParts (level + 1) (part :: parts) ++ margin level ++ "]"

/-- The fields of a record, each from a line of its own on. -/
def layoutFields (level : Nat) : List (String × Outline) → String
  | [] => ""
  | (label, part) :: fields =>
    margin level ++ label ++ ": " ++ layout level part ++ ",\n" ++ layoutFields level fields

def layoutParts (level : Nat) : List Outline → String
  | [] => ""
  | part :: parts => margin level ++ layout level part ++ ",\n" ++ layoutParts level parts

end

/-- The rendering over several lines: four blanks per level, a comma after every part. -/
def indented (o : Outline) : String :=
  o.layout 0

end Outline

end RecencyCache
