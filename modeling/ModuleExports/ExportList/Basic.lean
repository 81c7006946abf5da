import ModuleExports.Name.Basic
import ModuleExports.Name.Kind
import ModuleExports.Source

/-!
The entries of an export list. Two entries list the same item when they differ at most in their
spans.
-/
namespace ModuleExports

/-- A type without constructors listed, written `T(..)`, stands for all of them. -/
inductive ExportItem where
  | type (name : String) (constructors : Option (List String))
  | typeOperator (name : String)
  | typeClass (name : String)
  | value (name : String)
  | valueOperator (name : String)
  | module (name : ModuleName)
  deriving DecidableEq, Inhabited

namespace ExportItem

def kind : ExportItem → NameKind
  | type .. => .inNamespace .type
  | typeOperator _ => .inNamespace .typeOperator
  | typeClass _ => .inNamespace .typeClass
  | value _ => .inNamespace .value
  | valueOperator _ => .inNamespace .valueOperator
  | module _ => .module

def name : ExportItem → String
  | type n _ | typeOperator n | typeClass n | value n | valueOperator n => n
  | module m => m.text

def module? : ExportItem → Option ModuleName
  | module m => some m
  | _ => none

/-- The type and the constructors listed with it, if the item is a type. -/
def type? : ExportItem → Option (String × Option (List String))
  | type n cs => some (n, cs)
  | _ => none

/-- The namespace and the name of an item that lists one name without constructors. -/
def plain? : ExportItem → Option (Namespace × String)
  | typeOperator n => some (.typeOperator, n)
  | typeClass n => some (.typeClass, n)
  | value n => some (.value, n)
  | valueOperator n => some (.valueOperator, n)
  | type .. | module _ => none

/-- The constructors that the item itself spells out. -/
def listed : ExportItem → List String
  | type _ (some cs) => cs
  | _ => []

private def listing : ExportItem → Option (List String)
  | type _ cs => cs
  | _ => none

/-- By kind, then by name, then all constructors before any list of them. -/
instance : Ord ExportItem :=
  ⟨compareLex (compareOn kind) (compareLex (compareOn name) (compareOn listing))⟩

instance : ToString ExportItem where
  toString
    | type n none => n ++ "(..)"
    | type n (some cs) => n ++ "(" ++ ", ".intercalate cs ++ ")"
    | typeOperator n => "type (" ++ n ++ ")"
    | typeClass n => "class " ++ n
    | value n => n
    | valueOperator n => "(" ++ n ++ ")"
    | module m => "module " ++ m.text

end ExportItem

/-- The kind and the name of an item, without its constructors. -/
structure ItemKey where
  kind : NameKind
  name : String
  deriving DecidableEq, Inhabited

namespace ItemKey
open Std

instance : Ord ItemKey := ⟨compareLex (compareOn kind) (compareOn name)⟩

instance : TransOrd ItemKey :=
  inferInstanceAs (TransCmp (compareLex (compareOn kind) (compareOn name)))

instance : LawfulEqOrd ItemKey where
  eq_of_compare {a b} h := by
    obtain ⟨h₁, h₂⟩ := Ordering.then_eq_eq.1 h
    cases a
    cases b
    simp_all [compareOn]

end ItemKey

def ExportItem.key (i : ExportItem) : ItemKey := ⟨i.kind, i.name⟩

structure ExportRef where
  span : Span
  item : ExportItem
  deriving DecidableEq, Inhabited

namespace ExportRef

/-- Whether two refs list the same item, wherever they stand. -/
def sameItem (a b : ExportRef) : Bool := a.item == b.item

instance : ToString ExportRef := ⟨fun r => toString r.item⟩

end ExportRef

end ModuleExports
