import ModuleExports.Toml.Scalar

/-!
Reading TOML documents: the statements of the text in order, and the tables they build up.
-/
namespace ModuleExports
namespace Toml
open Reader

/-- A dotted key: the path to a table and the key in it. -/
structure Key where
  path : List String
  last : String
  deriving DecidableEq, Inhabited

inductive Statement where
  | assign (key : Key) (n : Node)
  | table (key : Key)
  | element (key : Key)

/-- Fewer than so many parts make up a key, and fewer than so many arrays and inline tables nest. -/
def depthLimit : Nat := 80

def isBareChar (c : Char) : Bool := c.isAlphanum || c == '_' || c == '-'

def simpleKey : Reader String :=
  basicString <|> literalString <|> (return .ofList (← spanOf1 isBareChar))

def key : Reader Key := do
  let parts ← sepBy1 (do spaces; let k ← simpleKey; spaces; return k) (char '.')
  if parts.length < depthLimit then return ⟨parts.dropLast, parts.getLastD ""⟩ else failure

def comment : Reader Unit := do
  char '#'
  discard (spanOf isPrintable)

/-- What may stand between the items of an array. -/
def gap : Reader Unit :=
  discard (many (discard (satisfy isSpace) <|> newline <|> do comment; newline))

/-- A key and its value, on one line but for the value. -/
def assignment (value : Reader Node) : Reader (Key × Node) := do
  let k ← key
  char '='
  spaces
  return (k, ← value)

/-- The items may be followed by a comma. -/
def array (value : Reader Node) : Reader Node := do
  char '['
  let items ← sepBy (do gap; let n ← value; gap; return n) (char ',')
  if !items.isEmpty then discard (optional (char ','))
  gap
  char ']'
  return .array items

def inlineTable (value : Reader Node) : Reader Node := do
  char '\x7b'
  let pairs ← sepBy (do let a ← assignment value; spaces; return a) (char ',')
  spaces
  char '\x7d'
  match inlineEntries? (pairs.map fun a => ((a.1.path, a.1.last), a.2)) with
  | some es => return .inline es
  | none => failure

/-- A value in which arrays and inline tables nest at most so many levels. -/
def value : Nat → Reader Node
  | 0 => return .scalar (← scalar)
  | n + 1 => array (value n) <|> inlineTable (value n) <|> (return .scalar (← scalar))

def header : Reader Statement :=
  (do text "[["; let k ← key; text "]]"; return .element k) <|>
    (do char '['; let k ← key; char ']'; return .table k)

/-- A line with at most one statement and a comment. -/
def line : Reader (Option Statement) := do
  spaces
  let s ← optional (header <|> do
    let a ← assignment (value (depthLimit - 1))
    return .assign a.1 a.2)
  spaces
  discard (optional comment)
  newline <|> endOfText
  return s

def statements? (cs : List Char) : Option (List Statement) := do
  let lines ← readAll? (many line) cs
  return lines.filterMap id

/-- The entries of the document so far, and the path of the table that is open. -/
structure Building where
  entries : Entries := []
  current : List String := []

namespace Building

def add (b : Building) : Statement → Option Building
  | .assign k n => do
    let es ← b.entries.within false (Entries.assign k.path k.last n) b.current .header
    return { b with entries := es }
  | .table k => do
    let es ← b.entries.within false (Entries.openTable k.last) k.path .header
    return ⟨es, k.path ++ [k.last]⟩
  | .element k => do
    let es ← b.entries.within false (Entries.openElement k.last) k.path .header
    return ⟨es, k.path ++ [k.last]⟩

end Building

/-- The entries of a document. A byte order mark at its start is skipped. -/
def read? (text : String) : Option Entries := do
  let cs := match text.toList with
    | '\ufeff' :: cs => cs
    | cs => cs
  let b ← (← statements? cs).foldlM Building.add {}
  return b.entries

end Toml

end ModuleExports
