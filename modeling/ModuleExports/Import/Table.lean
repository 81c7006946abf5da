import ModuleExports.Name.Basic
import ModuleExports.Name.Kind
import ModuleExports.Source

/-!
What is visible in a module through its imports. A key is a name as the module sees it; it leads to
the records of every import that brought the name in, and more than one record makes it ambiguous.
-/
namespace ModuleExports
open Std

/-- How a name came into scope: through an open import, named in an import list, declared in the
module itself, or built in. -/
inductive ImportStyle where
  | implicit | explicit | declared | builtin
  deriving DecidableEq, Inhabited

/-- One origin of a visible name: `module` exports it as `name`, and `home` declares it. -/
structure ImportRecord where
  module : ModuleName
  name : String
  home : ModuleName
  span : Span
  style : ImportStyle
  deriving DecidableEq, Inhabited

/-- The name in the module that the record imports it from. -/
def ImportRecord.exportedName (r : ImportRecord) : QualifiedName := ⟨some r.module, r.name⟩

abbrev ImportTable := ExtTreeMap QualifiedName (List ImportRecord)

namespace ImportTable

def records (t : ImportTable) (key : QualifiedName) : List ImportRecord := t[key]?.getD []

/-- Adds records at the end of those of the key; a key may be made without any. -/
def append (t : ImportTable) (key : QualifiedName) (rs : List ImportRecord) : ImportTable :=
  t.insert key (t.records key ++ rs)

/-- Number of keys with more than one record. -/
def ambiguities (t : ImportTable) : Nat := t.values.countP (1 < ·.length)

/-- The exported name of every record, in the order of the keys. -/
def exportedNames (t : ImportTable) : List QualifiedName :=
  t.values.flatMap (·.map ImportRecord.exportedName)

end ImportTable

structure Imports where
  types : ImportTable := ∅
  typeOperators : ImportTable := ∅
  dataConstructors : ImportTable := ∅
  typeClasses : ImportTable := ∅
  values : ImportTable := ∅
  valueOperators : ImportTable := ∅
  /-- The modules that are imported without a qualifier. -/
  unqualified : ModuleSet := ∅
  deriving DecidableEq, Inhabited

namespace Imports

/-- No import brings in a module as a name. -/
def table (i : Imports) : NameKind → ImportTable
  | .inNamespace .type => i.types
  | .inNamespace .typeOperator => i.typeOperators
  | .inNamespace .typeClass => i.typeClasses
  | .inNamespace .value => i.values
  | .inNamespace .valueOperator => i.valueOperators
  | .dataConstructor => i.dataConstructors
  | .module => ∅

def withTable (i : Imports) : NameKind → ImportTable → Imports
  | .inNamespace .type, t => { i with types := t }
  | .inNamespace .typeOperator, t => { i with typeOperators := t }
  | .inNamespace .typeClass, t => { i with typeClasses := t }
  | .inNamespace .value, t => { i with values := t }
  | .inNamespace .valueOperator, t => { i with valueOperators := t }
  | .dataConstructor, t => { i with dataConstructors := t }
  | .module, _ => i

theorem table_withTable (i : Imports) {k : NameKind} (t : ImportTable) (h : k ≠ .module) :
    (i.withTable k t).table k = t := by
  cases k with
  | inNamespace ns => cases ns <;> rfl
  | dataConstructor => rfl
  | module => exact absurd rfl h

theorem table_withTable_of_ne (i : Imports) {k l : NameKind} (t : ImportTable) (h : l ≠ k) :
    (i.withTable k t).table l = i.table l := by
  cases k with
  | inNamespace ns => cases l with
    | inNamespace ms => cases ns <;> cases ms <;> simp_all [withTable, table]
    | _ => cases ns <;> rfl
  | dataConstructor => cases l with
    | inNamespace ms => cases ms <;> rfl
    | dataConstructor => exact absurd rfl h
    | module => rfl
  | module => rfl

/-- The records of a visible name, if it is one. -/
def get? (i : Imports) (k : NameKind) (key : QualifiedName) : Option (List ImportRecord) :=
  (i.table k)[key]?

def tables (i : Imports) : List ImportTable := NameKind.all.map i.table

def append (i : Imports) (k : NameKind) (key : QualifiedName) (rs : List ImportRecord) : Imports :=
  i.withTable k ((i.table k).append key rs)

def openModule (i : Imports) (m : ModuleName) : Imports :=
  { i with unqualified := i.unqualified.insert m }

/-- Whether `m` qualifies some visible name, as the alias of a qualified import does. -/
def isQualifier (i : Imports) (m : ModuleName) : Bool :=
  i.tables.any fun t => t.keys.any (·.hasQualifier m)

def isOpened (i : Imports) (m : ModuleName) : Bool := i.unqualified.contains m

def ambiguities (i : Imports) : Nat := i.tables.foldl (fun n t => n + t.ambiguities) 0

end Imports

end ModuleExports
