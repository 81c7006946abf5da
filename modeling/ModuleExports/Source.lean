/-!
Places in a source text, and the top-level declarations of a module, as far as they bear on what it
can export. Lines and columns are 32-bit words counted from one; the null span stands for an entry
without a place.
-/
namespace ModuleExports
open Std

structure Position where
  line : UInt32
  column : UInt32
  deriving DecidableEq, Inhabited

namespace Position

instance : Ord Position := ⟨compareLex (compareOn line) (compareOn column)⟩

instance : TransOrd Position :=
  inferInstanceAs (TransCmp (compareLex (compareOn line) (compareOn column)))

instance : LawfulEqOrd Position where
  eq_of_compare {a b} h := by
    obtain ⟨h₁, h₂⟩ := Ordering.then_eq_eq.1 h
    cases a
    cases b
    simp_all [compareOn]

instance : ToString Position := ⟨fun p => toString p.line ++ ":" ++ toString p.column⟩

end Position

structure Span where
  start : Position
  stop : Position
  deriving DecidableEq, Inhabited

namespace Span

instance : Ord Span := ⟨compareLex (compareOn start) (compareOn stop)⟩

instance : TransOrd Span :=
  inferInstanceAs (TransCmp (compareLex (compareOn start) (compareOn stop)))

instance : LawfulEqOrd Span where
  eq_of_compare {a b} h := by
    obtain ⟨h₁, h₂⟩ := Ordering.then_eq_eq.1 h
    cases a
    cases b
    simp_all [compareOn]

def null : Span := ⟨⟨0, 0⟩, ⟨0, 0⟩⟩

def isNull (s : Span) : Bool := s == null

instance : ToString Span where
  toString s :=
    if s.isNull then "<unknown location>" else toString s.start ++ "-" ++ toString s.stop

end Span

/-- A signature inside a class. -/
structure ClassMember where
  name : String
  span : Span
  deriving DecidableEq, Inhabited

/-- Mutually recursive declarations are bound in a group, and groups nest. -/
inductive Declaration where
  | data (name : String) (constructors : List String)
  | typeSynonym (name : String)
  | foreignType (name : String)
  | typeClass (name : String) (members : List ClassMember)
  | value (name : String)
  | foreignValue (name : String)
  | valueFixity (operator : String)
  | typeFixity (operator : String)
  | typeInstance (name : String)
  | kindSignature (name : String)
  | group (members : List Declaration)
  deriving Inhabited

end ModuleExports
