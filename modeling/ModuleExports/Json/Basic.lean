/-!
JSON values and their text. The members of an object keep their order, and a number keeps the
characters it is written with.
-/
namespace ModuleExports

/-- A string is `none` if its escapes spell unpaired surrogates, for which there is no text. -/
inductive Json where
  | null
  | bool (b : Bool)
  | number (lexeme : List Char)
  | string (text : Option String)
  | array (items : List Json)
  | object (members : List (Option String × Json))
  deriving Inhabited

namespace Json

def text (s : String) : Json := .string (some s)

def nat (n : Nat) : Json := .number (Nat.toDigits 10 n)

/-- An object with text for keys. -/
def fields (members : List (String × Json)) : Json := .object (members.map fun m => (some m.1, m.2))

/-- The case `tag` of a choice, with its content. -/
def tagged (tag : String) (content : Json) : Json := .object [(some tag, content)]

/-- Blanks may stand between the parts of a text. -/
def isBlank (c : Char) : Bool := c == ' ' || c == '\t' || c == '\n' || c == '\r'

/-- The blanks between the parts: where a line may break at a depth, and after a colon. -/
structure Layout where
  newline : Nat → List Char
  space : List Char
  newline_blank : ∀ n, ∀ c ∈ newline n, isBlank c := by simp
  space_blank : ∀ c ∈ space, isBlank c := by simp

namespace Layout

def compact : Layout := ⟨fun _ => [], [], by simp, by simp⟩

/-- Each item and member on a line of its own, two columns further in than what holds it. -/
def indented : Layout where
  newline n := '\n' :: List.replicate (2 * n) ' '
  space := [' ']
  newline_blank n c h := by
    simp only [List.mem_cons, List.mem_replicate] at h
    rcases h with rfl | ⟨_, rfl⟩ <;> rfl
  space_blank c h := by
    obtain rfl := List.mem_singleton.1 h
    rfl

end Layout

def hexDigit (n : Nat) : Char := (Nat.toDigits 16 n).headD '0'

/-- Control characters, the quote and the backslash are escaped, all else is written as it is. -/
def escape (c : Char) : List Char :=
  if c = '"' then ['\\', '"']
  else if c = '\\' then ['\\', '\\']
  else if c = '\n' then ['\\', 'n']
  else if c = '\r' then ['\\', 'r']
  else if c = '\t' then ['\\', 't']
  else if c = '\x08' then ['\\', 'b']
  else if c = '\x0c' then ['\\', 'f']
  else if c.toNat < 0x20 then
    ['\\', 'u', '0', '0', hexDigit (c.toNat / 16), hexDigit (c.toNat % 16)]
  else [c]

def quote : Option String → List Char
  | some s => '"' :: s.toList.flatMap escape ++ ['"']
  | none => "\"\\ud800\"".toList

mutual

/-- The text of a value that stands at the given depth. -/
def write (l : Layout) (depth : Nat) : Json → List Char
  | .null => "null".toList
  | .bool true => "true".toList
  | .bool false => "false".toList
  | .number lexeme => lexeme
  | .string s => quote s
  | .array [] => ['[', ']']
  | .array (x :: xs) =>
    '[' :: l.newline (depth + 1) ++ x.write l (depth + 1) ++ writeItems l (depth + 1) xs ++
      l.newline depth ++ [']']
  | .object [] => ['\x7b', '\x7d']
  | .object ((k, x) :: ms) =>
    '\x7b' :: l.newline (depth + 1) ++ quote k ++ ':' :: l.space ++ x.write l (depth + 1) ++
      writeMembers l (depth + 1) ms ++ l.newline depth ++ ['\x7d']

/-- Items after the first. -/
def writeItems (l : Layout) (depth : Nat) : List Json → List Char
  | [] => []
  | x :: xs => ',' :: l.newline depth ++ x.write l depth ++ writeItems l depth xs

/-- Members after the first. -/
def writeMembers (l : Layout) (depth : Nat) : List (Option String × Json) → List Char
  | [] => []
  | (k, x) :: ms =>
    ',' :: l.newline depth ++ quote k ++ ':' :: l.space ++ x.write l depth ++
      writeMembers l depth ms

end

/-- Without blanks. -/
def compact (j : Json) : String := .ofList (j.write .compact 0)

/-- One item or member a line. -/
def indented (j : Json) : String := .ofList (j.write .indented 0)

end Json

end ModuleExports
