/-!
TOML documents. A table knows how it came about, because a document may add to a table only in some
ways: a header opens it once, dotted keys extend what dotted keys made, and a table that a longer
header implied may still be opened by its own.
-/
namespace ModuleExports
namespace Toml

inductive Scalar where
  | string (s : String)
  | integer (n : Int)
  | float (lexeme : String)
  | boolean (b : Bool)
  | moment (lexeme : String)
  deriving DecidableEq

/-- How a table was made. -/
inductive Making where
  | header | implied | dotted
  deriving DecidableEq

/-- Arrays and inline tables are complete as written; of an array of tables only the last one is
still open. -/
inductive Node where
  | scalar (s : Scalar)
  | array (items : List Node)
  | inline (entries : List (String × Node))
  | table (making : Making) (entries : List (String × Node))
  | tables (last : List (String × Node)) (earlier : List (List (String × Node)))

abbrev Entries := List (String × Node)

namespace Entries

/-- Replaces the entry of a key in its place, or adds it at the end. -/
def set (key : String) (n : Node) : Entries → Entries
  | [] => [(key, n)]
  | e :: es => if e.1 = key then (key, n) :: es else e :: set key n es

/-- Changes the table at the end of a path. Tables that are missing on the way are made; dotted keys
do not lead into a table that a header opened. -/
def within (dotted : Bool) (change : Making → Entries → Option Entries) :
    List String → Making → Entries → Option Entries
  | [], making, es => change making es
  | key :: path, _, es =>
    match es.lookup key with
    | none => do
      let making := if dotted then .dotted else .implied
      return es.set key (.table making (← within dotted change path making []))
    | some (.table making sub) =>
      if dotted ∧ making = .header then none
      else do return es.set key (.table making (← within dotted change path making sub))
    | some (.tables last earlier) => do
      return es.set key (.tables (← within dotted change path .header last) earlier)
    | some (.scalar _) | some (.array _) | some (.inline _) => none

/-- Adds a value under a new key; only dotted keys add to the tables that they make. -/
def addValue (isDotted : Bool) (key : String) (n : Node) (making : Making) (es : Entries) :
    Option Entries :=
  if (making == .dotted) != isDotted ∨ (es.lookup key).isSome then none else some (es ++ [(key, n)])

/-- Assigns a value to a dotted key in the given table. -/
def assign (path : List String) (key : String) (n : Node) (making : Making) (es : Entries) :
    Option Entries :=
  within true (addValue (!path.isEmpty) key n) path making es

/-- Opens a table by its header. -/
def openTable (key : String) (_ : Making) (es : Entries) : Option Entries :=
  match es.lookup key with
  | none => some (es.set key (.table .header []))
  | some (.table .implied sub) => some (es.set key (.table .header sub))
  | _ => none

/-- Opens a further element of an array of tables. -/
def openElement (key : String) (_ : Making) (es : Entries) : Option Entries :=
  match es.lookup key with
  | none => some (es.set key (.tables [] []))
  | some (.tables last earlier) => some (es.set key (.tables [] (last :: earlier)))
  | _ => none

end Entries

/-- The entries of an inline table, from its dotted keys. -/
def inlineEntries? (pairs : List ((List String × String) × Node)) : Option Entries :=
  pairs.foldlM (fun es p => Entries.assign p.1.1 p.1.2 p.2 .header es) []

end Toml

end ModuleExports
