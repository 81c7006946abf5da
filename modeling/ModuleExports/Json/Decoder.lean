import ModuleExports.Json.Reader

/-!
Taking values of the domain out of JSON. A decoder is given the number of levels that arrays and
objects may nest below it; what it passes over may nest without bound.
-/
namespace ModuleExports

namespace Json

abbrev Decoder (α : Type) := Nat → Json → Option α

/-- How deep arrays and objects may nest in a text that is decoded. -/
def maxLevels : Nat := 127

def decode? {α : Type} (d : Decoder α) (text : String) : Option α := (read? text).bind (d maxLevels)

namespace Decoder
variable {α : Type}

/-- A natural number below the bound, written in digits alone. -/
def natBelow (bound : Nat) : Decoder Nat := fun _ j =>
  match j with
  | .number lexeme =>
    let n := Nat.ofDigitChars 10 lexeme 0
    if lexeme.all Char.isDigit ∧ n < bound then some n else none
  | _ => none

def word32 : Decoder UInt32 := fun n j => (natBelow UInt32.size n j).map UInt32.ofNat

def word64 : Decoder UInt64 := fun n j => (natBelow UInt64.size n j).map UInt64.ofNat

def bool : Decoder Bool := fun _ j =>
  match j with
  | .bool b => some b
  | _ => none

def string : Decoder String := fun _ j =>
  match j with
  | .string s => s
  | _ => none

def unit : Decoder Unit := fun _ j =>
  match j with
  | .null => some ()
  | _ => none

def option (d : Decoder α) : Decoder (Option α) := fun n j =>
  match j with
  | .null => some none
  | j => (d n j).map some

def list (d : Decoder α) : Decoder (List α)
  | n + 1, .array items => items.mapM (d n)
  | _, _ => none

/-- The members of an object in order, if all its keys are texts. -/
def members? (ms : List (Option String × Json)) : Option (List (String × Json)) :=
  ms.mapM fun m => m.1.map (·, m.2)

/-- The value of a field: missing, or given once. -/
def field? (ms : List (String × Json)) (name : String) : Option (Option Json) :=
  match ms.filter (·.1 == name) with
  | [] => some none
  | [m] => some (some m.2)
  | _ => none

/-- The values of the named fields of a record, of which an object may leave some out and name
others besides. An array gives the fields in order, all of them unless the tail may be missing. -/
def record (names : List String) (openEnd : Bool) (read : Nat → List (Option Json) → Option α) :
    Decoder α
  | n + 1, .object ms => do
    let ms ← members? ms
    read n (← names.mapM (field? ms))
  | n + 1, .array items =>
    if items.length = names.length ∨ openEnd ∧ items.length ≤ names.length then
      read n (items.map some ++ List.replicate (names.length - items.length) none)
    else none
  | _, _ => none

/-- A field that has to be there. -/
def required (d : Decoder α) (n : Nat) (j : Option Json) : Option α := j.bind (d n)

/-- A field with a value for when it is missing. -/
def defaulted (d : Decoder α) (default : α) (n : Nat) : Option Json → Option α
  | none => some default
  | some j => d n j

/-- A field that may be missing or null. -/
def optional (d : Decoder α) (n : Nat) (j : Option Json) : Option (Option α) :=
  option d n (j.getD .null)

/-- One of the cases without content: its tag alone, or the tag with null. -/
def oneOf (cases : List (String × α)) : Decoder α
  | _, .string (some tag) => cases.lookup tag
  | _ + 1, .object [(some tag, .null)] => cases.lookup tag
  | _, _ => none

/-- One of the cases with content. -/
def choice (cases : List (String × Decoder α)) : Decoder α
  | n + 1, .object [(some tag, content)] => (cases.lookup tag).bind fun d => d n content
  | _, _ => none

end Decoder

end Json

end ModuleExports
