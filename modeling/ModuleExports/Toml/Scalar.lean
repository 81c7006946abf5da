import ModuleExports.Toml.Basic
import ModuleExports.Toml.Reader

/-!
The scalars of TOML: strings in their four forms, numbers, booleans, and dates and times.
-/
namespace ModuleExports
namespace Toml
open Reader

def isSpace (c : Char) : Bool := c == ' ' || c == '\t'

/-- Characters that comments and literal strings may hold, apart from their delimiters. -/
def isPrintable (c : Char) : Bool := c == '\t' || (0x20 ≤ c.toNat && c.toNat != 0x7F)

def isHexDigit (c : Char) : Bool :=
  c.isDigit || ('a' ≤ c && c ≤ 'f') || ('A' ≤ c && c ≤ 'F')

def spaces : Reader Unit := do discard (spanOf isSpace)

def newline : Reader Unit := char '\n' <|> text "\r\n"

def digitValue (c : Char) : Nat :=
  if c.isDigit then c.toNat - '0'.toNat
  else if 'a' ≤ c ∧ c ≤ 'f' then c.toNat - 'a'.toNat + 10
  else c.toNat - 'A'.toNat + 10

/-- The number that digits write in a base. -/
def valueOf (base : Nat) (digits : List Char) : Nat :=
  digits.foldl (fun n c => base * n + digitValue c) 0

/-! ### Strings -/

/-- A character given by its code point in hexadecimal digits. -/
def codePoint (digits : Nat) : Reader Char := do
  let n := valueOf 16 (← exactly digits isHexDigit)
  if n.isValidChar then return .ofNat n else failure

/-- What follows the backslash of an escape. -/
def escaped : Reader Char := do
  match ← satisfy fun _ => true with
  | 'b' => return '\x08'
  | 'f' => return '\x0c'
  | 'n' => return '\n'
  | 'r' => return '\r'
  | 't' => return '\t'
  | '"' => return '"'
  | '\\' => return '\\'
  | 'u' => codePoint 4
  | 'U' => codePoint 8
  | _ => failure

def basicChar : Reader Char :=
  satisfy (fun c => isPrintable c && c != '"' && c != '\\') <|> do char '\\'; escaped

def basicString : Reader String := do
  char '"'
  let cs ← many basicChar
  char '"'
  return .ofList cs

def literalString : Reader String := do
  char '\''
  let cs ← spanOf fun c => isPrintable c && c != '\''
  char '\''
  return .ofList cs

/-- A line end within a string counts as a line feed. -/
def lineFeed : Reader Char := do newline; return '\n'

/-- A backslash at the end of a line skips what is blank up to the next text. -/
def foldedLine : Reader Unit := do
  char '\\'
  spaces
  newline
  discard (many (discard (satisfy isSpace) <|> newline))

/-- Quotes within a string of many lines: one or two of them, with something else after them. -/
def innerQuotes (q : Char) : Reader (List Char) := fun s =>
  let (qs, r) := s.span (· == q)
  if qs.length = 1 ∨ qs.length = 2 then some (qs, r) else none

/-- Three quotes end a string of many lines; up to two more before them belong to it. -/
def closingQuotes (q : Char) : Reader (List Char) := fun s =>
  let n := min (s.span (· == q)).1.length 5
  if 3 ≤ n then some (List.replicate (n - 3) q, s.drop n) else none

/-- A string of many lines, from the pieces between its quotes. A line end at its very start is
skipped. -/
def manyLines (q : Char) (piece : Reader (List Char)) : Reader String := do
  text (.ofList [q, q, q])
  discard (optional newline)
  let pieces ← many (piece <|> innerQuotes q)
  return .ofList (pieces.flatten ++ (← closingQuotes q))

def basicLines : Reader String :=
  manyLines '"' ((do foldedLine; return []) <|> (return [← basicChar]) <|> (return [← lineFeed]))

def literalLines : Reader String :=
  manyLines '\''
    (spanOf1 (fun c => isPrintable c && c != '\'') <|> (return [← lineFeed]))

def string : Reader String := basicLines <|> basicString <|> literalLines <|> literalString

/-! ### Numbers -/

/-- Digits with single underscores between them. -/
def digitsBy (isDigit : Char → Bool) : Reader (List Char) := do
  let groups ← sepBy1 (spanOf1 isDigit) (char '_')
  return groups.flatten

/-- Decimal digits without a leading zero. -/
def wholeDigits : Reader (List Char) :=
  check (digitsBy Char.isDigit) (fun ds => ds.length = 1 || ds.head? != some '0')

/-- Whether a sign is given, and whether it is a minus. -/
def sign : Reader (Option Bool) :=
  optional ((do char '+'; return false) <|> (do char '-'; return true))

def signed (negative : Option Bool) (n : Nat) : Int := if negative = some true then -n else n

/-- Integers are words of 64 bits with a sign. -/
def inRange (n : Int) : Bool := Int64.minValue.toInt ≤ n && n ≤ Int64.maxValue.toInt

def based (mark : String) (base : Nat) (isDigit : Char → Bool) : Reader Int := do
  text mark
  return valueOf base (← digitsBy isDigit)

def integer : Reader Int :=
  check
    (based "0x" 16 isHexDigit <|> based "0o" 8 (fun c => '0' ≤ c && c ≤ '7') <|>
      based "0b" 2 (fun c => c == '0' || c == '1') <|>
      do return signed (← sign) (valueOf 10 (← wholeDigits)))
    inRange

/-- Whether `m * 10 ^ e` is so large that it rounds to infinity in binary64: half a unit in the last
place above the largest number, or more. -/
def overflows (m : Nat) (e : Int) : Bool :=
  let bound := Nat.pow 2 1024 - Nat.pow 2 970
  let size : Int := (Nat.toDigits 10 m).length + e
  if m = 0 then false
  else if size > 400 then true
  else if size < 300 then false
  else if 0 ≤ e then bound ≤ m * Nat.pow 10 e.toNat
  else bound * Nat.pow 10 (-e).toNat ≤ m

def exponent : Reader Int := do
  discard (satisfy fun c => c == 'e' || c == 'E')
  return signed (← sign) (valueOf 10 (← digitsBy Char.isDigit))

def fraction : Reader (List Char) := do
  char '.'
  digitsBy Char.isDigit

/-- A decimal number that is not too large, or one of the names of infinity and not-a-number. Below
zero no number is too large. -/
def float : Reader Unit := do
  let s ← sign
  (do
    let whole ← wholeDigits
    let (decimals, e) ← (do return ([], ← exponent)) <|>
      (do return (← fraction, (← optional exponent).getD 0))
    let m := valueOf 10 (whole ++ decimals)
    if s ≠ some true ∧ overflows m (e - decimals.length) then failure)
    <|> text "inf" <|> text "nan"

/-! ### Dates and times -/

def numberIn (digits low high : Nat) : Reader Nat :=
  check ((valueOf 10 ·) <$> exactly digits Char.isDigit) (fun n => low ≤ n && n ≤ high)

def daysIn (year month : Nat) : Nat :=
  if month = 2 then
    if year % 4 = 0 ∧ (year % 100 ≠ 0 ∨ year % 400 = 0) then 29 else 28
  else if month = 4 ∨ month = 6 ∨ month = 9 ∨ month = 11 then 30
  else 31

def date : Reader Unit := do
  let year ← numberIn 4 0 9999
  char '-'
  let month ← numberIn 2 1 12
  char '-'
  discard (numberIn 2 1 (daysIn year month))

def hourMinute : Reader Unit := do
  discard (numberIn 2 0 23)
  char ':'
  discard (numberIn 2 0 59)

/-- A leap second may be the sixtieth. -/
def time : Reader Unit := do
  hourMinute
  char ':'
  discard (numberIn 2 0 60)
  discard (optional (do char '.'; discard (spanOf1 Char.isDigit)))

def offset : Reader Unit :=
  discard (satisfy fun c => c == 'Z' || c == 'z') <|> do
    discard (satisfy fun c => c == '+' || c == '-')
    hourMinute

def moment : Reader Unit :=
  (do
    date
    discard (optional (do
      discard (satisfy fun c => c == 'T' || c == 't' || c == ' ')
      time
      discard (optional offset)))) <|> time

/-- The characters that a reader takes. -/
def lexeme (p : Reader Unit) : Reader String := fun s => do
  let ((), r) ← p s
  return (.ofList (s.take (s.length - r.length)), r)

def scalar : Reader Scalar :=
  (return .string (← string)) <|>
    (do text "true"; return .boolean true) <|>
    (do text "false"; return .boolean false) <|>
    (return .moment (← lexeme moment)) <|>
    (return .float (← lexeme float)) <|>
    (return .integer (← integer))

end Toml

end ModuleExports
