/-!
Readers that take a part of a text from its start and leave the rest. They are total: a repetition
ends when a further turn fails or reads nothing.
-/
namespace ModuleExports
namespace Toml

abbrev Reader := StateT (List Char) Option

namespace Reader
variable {α β : Type}

/-- One character that passes the test. -/
def satisfy (p : Char → Bool) : Reader Char := fun s =>
  match s with
  | c :: r => if p c then some (c, r) else none
  | [] => none

def char (c : Char) : Reader Unit := do discard (satisfy (· == c))

def text (t : String) : Reader Unit := t.toList.forM char

/-- As many characters as pass the test. -/
def spanOf (p : Char → Bool) : Reader (List Char) := fun s => some (s.span p)

/-- At least one character that passes the test. -/
def spanOf1 (p : Char → Bool) : Reader (List Char) := do return (← satisfy p) :: (← spanOf p)

/-- Exactly `n` characters that pass the test. -/
def exactly (n : Nat) (p : Char → Bool) : Reader (List Char) :=
  (List.range n).mapM fun _ => satisfy p

def manyFrom (p : Reader α) (s : List Char) : List α × List Char :=
  match p s with
  | some (a, r) =>
    if r.length < s.length then ((a :: (manyFrom p r).1), (manyFrom p r).2) else ([], s)
  | none => ([], s)
  termination_by s.length

/-- As many turns as succeed. -/
def many (p : Reader α) : Reader (List α) := fun s => some (manyFrom p s)

/-- One turn or more, with a separator between any two. -/
def sepBy1 (p : Reader α) (sep : Reader β) : Reader (List α) := do
  return (← p) :: (← many (do discard sep; p))

def sepBy (p : Reader α) (sep : Reader β) : Reader (List α) := sepBy1 p sep <|> pure []

/-- The result, if it passes the test. -/
def check (p : Reader α) (ok : α → Bool) : Reader α := do
  let a ← p
  if ok a then return a else failure

def endOfText : Reader Unit := fun s => if s.isEmpty then some ((), []) else none

/-- The result of reading a whole text. -/
def readAll? (p : Reader α) (s : List Char) : Option α := do
  let (a, _) ← (do let a ← p; endOfText; return a : Reader α) s
  return a

end Reader

end Toml

end ModuleExports
