import ModuleExports.Json.Basic

/-!
Reading JSON text character by character. The state holds the arrays and objects that are still
open, so no depth of nesting is too much for the reader itself; reading two texts in a row is reading
the second one from the state that the first one left.
-/
namespace ModuleExports

namespace Json

/-- What a string has spelled so far, its last character first. An escaped surrogate waits for the
other half of its pair. -/
structure Spelling where
  chars : List Char := []
  high : Option Nat := none
  broken : Bool := false

namespace Spelling

def char (s : Spelling) (c : Char) : Spelling := ⟨c :: s.chars, none, s.broken || s.high.isSome⟩

/-- Takes one 16-bit unit of an escape. -/
def unit (s : Spelling) (u : Nat) : Spelling :=
  if 0xD800 ≤ u ∧ u < 0xDC00 then ⟨s.chars, some u, s.broken || s.high.isSome⟩
  else if 0xDC00 ≤ u ∧ u < 0xE000 then
    match s.high with
    | some h => ⟨.ofNat (0x10000 + (h - 0xD800) * 0x400 + (u - 0xDC00)) :: s.chars, none, s.broken⟩
    | none => ⟨s.chars, none, true⟩
  else s.char (.ofNat u)

def text? (s : Spelling) : Option String :=
  if s.broken || s.high.isSome then none else some (.ofList s.chars.reverse)

end Spelling

/-- How far a number has been read. -/
inductive NumberPart where
  | minus | zero | whole | point | fraction | exponent | exponentSign | exponentDigits
  deriving DecidableEq

namespace NumberPart

/-- Whether a number may end here. -/
def isComplete : NumberPart → Bool
  | zero | whole | fraction | exponentDigits => true
  | minus | point | exponent | exponentSign => false

/-- The part that a further character leads to, if it belongs to the number. -/
def next? (p : NumberPart) (c : Char) : Option NumberPart :=
  match p with
  | minus => if c = '0' then some zero else if c.isDigit then some whole else none
  | zero | whole =>
    if c = '.' then some point
    else if c = 'e' ∨ c = 'E' then some exponent
    else if p = whole ∧ c.isDigit then some whole
    else none
  | point => if c.isDigit then some fraction else none
  | fraction =>
    if c = 'e' ∨ c = 'E' then some exponent else if c.isDigit then some fraction else none
  | exponent =>
    if c = '+' ∨ c = '-' then some exponentSign
    else if c.isDigit then some exponentDigits
    else none
  | exponentSign | exponentDigits => if c.isDigit then some exponentDigits else none

/-- The part that the first character of a number leads to. -/
def first? (c : Char) : Option NumberPart := if c = '-' then some minus else minus.next? c

end NumberPart

/-- What is open around the place being read; the parts read so far stand last first. -/
inductive Frame where
  | array (items : List Json)
  | object (members : List (Option String × Json))
  | member (members : List (Option String × Json)) (key : Option String)

/-- Within a string. -/
inductive StringPart where
  | plain
  | escape
  | hex (digits value : Nat)

inductive Phase where
  /-- Before a value. -/
  | value
  /-- Before the first item of an array, which may be missing. -/
  | firstItem
  /-- Before the first key of an object, which may be missing. -/
  | firstKey
  | key
  | colon
  /-- After a value within an array or an object. -/
  | next
  /-- After the value of the whole text. -/
  | done (j : Json)
  | word (left : List Char) (j : Json)
  | number (part : NumberPart) (lexeme : List Char)
  | string (isKey : Bool) (part : StringPart) (spelling : Spelling)

structure State where
  phase : Phase
  frames : List Frame

namespace State

def start : State := ⟨.value, []⟩

/-- A value is complete. -/
def deliver (j : Json) : List Frame → State
  | .array items :: fs => ⟨.next, .array (j :: items) :: fs⟩
  | .member ms k :: fs => ⟨.next, .object ((k, j) :: ms) :: fs⟩
  | [] | .object _ :: _ => ⟨.done j, []⟩

/-- A key or a string value is complete. -/
def deliverText (isKey : Bool) (s : Option String) (fs : List Frame) : State :=
  match isKey, fs with
  | true, .object ms :: fs => ⟨.colon, .member ms s :: fs⟩
  | _, fs => deliver (.string s) fs

def hexValue? (c : Char) : Option Nat :=
  if c.isDigit then some (c.toNat - '0'.toNat)
  else if 'a' ≤ c ∧ c ≤ 'f' then some (c.toNat - 'a'.toNat + 10)
  else if 'A' ≤ c ∧ c ≤ 'F' then some (c.toNat - 'A'.toNat + 10)
  else none

/-- The character of a one-letter escape. -/
def unescape? (c : Char) : Option Char :=
  match c with
  | '"' | '\\' | '/' => some c
  | 'b' => some '\x08'
  | 'f' => some '\x0c'
  | 'n' => some '\n'
  | 'r' => some '\r'
  | 't' => some '\t'
  | _ => none

def stepString (isKey : Bool) (part : StringPart) (s : Spelling) (fs : List Frame) (c : Char) :
    Option State :=
  match part with
  | .plain =>
    if c = '"' then some (deliverText isKey s.text? fs)
    else if c = '\\' then some ⟨.string isKey .escape s, fs⟩
    else if c.toNat < 0x20 then none
    else some ⟨.string isKey .plain (s.char c), fs⟩
  | .escape =>
    if c = 'u' then some ⟨.string isKey (.hex 3 0) s, fs⟩
    else do return ⟨.string isKey .plain (s.char (← unescape? c)), fs⟩
  | .hex digits value => do
    let value := 16 * value + (← hexValue? c)
    match digits with
    | 0 => return ⟨.string isKey .plain (s.unit value), fs⟩
    | digits + 1 => return ⟨.string isKey (.hex digits value) s, fs⟩

/-- The first character of a value. -/
def stepValue (fs : List Frame) (c : Char) : Option State :=
  match c with
  | 'n' => some ⟨.word "ull".toList .null, fs⟩
  | 't' => some ⟨.word "rue".toList (.bool true), fs⟩
  | 'f' => some ⟨.word "alse".toList (.bool false), fs⟩
  | '"' => some ⟨.string false .plain {}, fs⟩
  | '[' => some ⟨.firstItem, .array [] :: fs⟩
  | '\x7b' => some ⟨.firstKey, .object [] :: fs⟩
  | _ => (NumberPart.first? c).map fun p => ⟨.number p [c], fs⟩

/-- A character after a value that is complete. -/
def stepNext (fs : List Frame) (c : Char) : Option State :=
  match c, fs with
  | ',', .array items :: fs => some ⟨.value, .array items :: fs⟩
  | ']', .array items :: fs => some (deliver (.array items.reverse) fs)
  | ',', .object ms :: fs => some ⟨.key, .object ms :: fs⟩
  | '\x7d', .object ms :: fs => some (deliver (.object ms.reverse) fs)
  | _, _ => none

/-- A character outside of words, numbers and strings. -/
def stepBetween (phase : Phase) (fs : List Frame) (c : Char) : Option State :=
  if isBlank c then some ⟨phase, fs⟩
  else match phase with
    | .value => stepValue fs c
    | .firstItem => if c = ']' then stepNext fs c else stepValue fs c
    | .firstKey =>
      if c = '\x7d' then stepNext fs c
      else if c = '"' then some ⟨.string true .plain {}, fs⟩
      else none
    | .key => if c = '"' then some ⟨.string true .plain {}, fs⟩ else none
    | .colon => if c = ':' then some ⟨.value, fs⟩ else none
    | .next => stepNext fs c
    | _ => none

def step (s : State) (c : Char) : Option State :=
  match s.phase with
  | .word [] _ => none
  | .word (x :: left) j =>
    if c ≠ x then none
    else if left.isEmpty then some (deliver j s.frames)
    else some ⟨.word left j, s.frames⟩
  | .number part lexeme =>
    match part.next? c with
    | some part => some ⟨.number part (c :: lexeme), s.frames⟩
    | none =>
      if part.isComplete then
        let s := deliver (.number lexeme.reverse) s.frames
        stepBetween s.phase s.frames c
      else none
  | .string isKey part spelling => stepString isKey part spelling s.frames c
  | phase => stepBetween phase s.frames c

def run (s : State) (cs : List Char) : Option State := cs.foldlM step s

/-- The value, if the text is complete. -/
def finish : State → Option Json
  | ⟨.done j, _⟩ => some j
  | ⟨.number part lexeme, []⟩ => if part.isComplete then some (.number lexeme.reverse) else none
  | _ => none

end State

/-- The value that a text writes, with nothing but blanks around it. -/
def read? (text : String) : Option Json := (State.start.run text.toList).bind State.finish

end Json

end ModuleExports
