import ModuleExports.Name.Basic
import ModuleExports.Name.Kind

/-!
The table of names that a module publishes: one ordered table per namespace. The table of a
namespace is the view through which every operation is described; two tables with the same view in
all five namespaces are equal.
-/
namespace ModuleExports
open Std

/-- The module that declares a name, and the module through which it was last re-exported. -/
structure Origin where
  definedIn : ModuleName
  importedFrom : Option ModuleName
  deriving DecidableEq, Inhabited

namespace Origin

def declared (m : ModuleName) : Origin := ⟨m, none⟩

def isDeclared (o : Origin) : Bool := o.importedFrom.isNone

/-- One more re-export replaces the last one. -/
def via (o : Origin) (m : ModuleName) : Origin := ⟨o.definedIn, some m⟩

end Origin

/-- Types carry their exported constructors, other names nothing. -/
@[reducible] def Payload : Namespace → Type
  | .type => List String
  | _ => Unit

namespace Payload

instance : (ns : Namespace) → DecidableEq (Payload ns)
  | .type => inferInstanceAs (DecidableEq (List String))
  | .typeOperator | .typeClass | .value | .valueOperator => inferInstanceAs (DecidableEq Unit)

def empty : (ns : Namespace) → Payload ns
  | .type => []
  | .typeOperator | .typeClass | .value | .valueOperator => ()

/-- The constructors of a type; other names have none. -/
def constructors : {ns : Namespace} → Payload ns → List String
  | .type, cs => cs
  | .typeOperator, _ | .typeClass, _ | .value, _ | .valueOperator, _ => []

/-- Keeps the constructors of a type that pass the test. -/
def restrict (keep : String → Bool) : {ns : Namespace} → Payload ns → Payload ns
  | .type, cs => cs.filter keep
  | .typeOperator, u | .typeClass, u | .value, u | .valueOperator, u => u

theorem constructors_restrict (keep : String → Bool) {ns : Namespace} (p : Payload ns) :
    (p.restrict keep).constructors = p.constructors.filter keep := by
  cases ns <;> rfl

theorem ext {ns : Namespace} {p q : Payload ns} (h : p.constructors = q.constructors) : p = q := by
  cases ns with
  | type => exact h
  | _ => rfl

end Payload

structure Entry (ns : Namespace) where
  payload : Payload ns
  origin : Origin
  deriving DecidableEq

namespace Entry
variable {ns : Namespace}

/-- An entry without constructors. -/
def plain (o : Origin) : Entry ns := ⟨.empty ns, o⟩

def constructors (e : Entry ns) : List String := e.payload.constructors

/-- The entry as re-exported through `m` with the constructors that pass the test. -/
def reexported (e : Entry ns) (m : ModuleName) (keep : String → Bool) : Entry ns :=
  ⟨e.payload.restrict keep, e.origin.via m⟩

theorem ext_constructors {d e : Entry ns} (ho : d.origin = e.origin)
    (hc : d.constructors = e.constructors) : d = e := by
  cases d
  cases e
  obtain rfl := Payload.ext hc
  obtain rfl := ho
  rfl

theorem constructors_eq_nil (h : ns ≠ .type) (e : Entry ns) : e.constructors = [] := by
  cases ns with
  | type => exact absurd rfl h
  | _ => rfl

@[simp] theorem constructors_reexported (e : Entry ns) (m : ModuleName) (keep : String → Bool) :
    (e.reexported m keep).constructors = e.constructors.filter keep :=
  Payload.constructors_restrict keep e.payload

end Entry

abbrev Table (ns : Namespace) := ExtTreeMap String (Entry ns)

structure Interface where
  types : Table .type := ∅
  typeOperators : Table .typeOperator := ∅
  typeClasses : Table .typeClass := ∅
  values : Table .value := ∅
  valueOperators : Table .valueOperator := ∅
  deriving DecidableEq, Inhabited

namespace Interface

instance : EmptyCollection Interface := ⟨{}⟩

def table (x : Interface) : (ns : Namespace) → Table ns
  | .type => x.types
  | .typeOperator => x.typeOperators
  | .typeClass => x.typeClasses
  | .value => x.values
  | .valueOperator => x.valueOperators

def ofTables (t : (ns : Namespace) → Table ns) : Interface :=
  ⟨t .type, t .typeOperator, t .typeClass, t .value, t .valueOperator⟩

/-- The tables are made in the order of the namespaces, with the effects of making them. -/
def ofTablesM {m : Type → Type} [Monad m] (t : (ns : Namespace) → m (Table ns)) : m Interface := do
  let types ← t .type
  let typeOperators ← t .typeOperator
  let typeClasses ← t .typeClass
  let values ← t .value
  let valueOperators ← t .valueOperator
  return ⟨types, typeOperators, typeClasses, values, valueOperators⟩

def withTable (x : Interface) : (ns : Namespace) → Table ns → Interface
  | .type, t => { x with types := t }
  | .typeOperator, t => { x with typeOperators := t }
  | .typeClass, t => { x with typeClasses := t }
  | .value, t => { x with values := t }
  | .valueOperator, t => { x with valueOperators := t }

@[simp] theorem table_empty (ns : Namespace) : (∅ : Interface).table ns = ∅ := by cases ns <;> rfl

@[simp] theorem table_ofTables (t : (ns : Namespace) → Table ns) (ns : Namespace) :
    (ofTables t).table ns = t ns := by
  cases ns <;> rfl

@[simp] theorem table_withTable_self (x : Interface) (ns : Namespace) (t : Table ns) :
    (x.withTable ns t).table ns = t := by
  cases ns <;> rfl

theorem table_withTable_of_ne (x : Interface) {ns ms : Namespace} (t : Table ns) (h : ms ≠ ns) :
    (x.withTable ns t).table ms = x.table ms := by
  cases ns <;> cases ms <;> simp_all [withTable, table]

@[ext] theorem ext_table {x y : Interface} (h : ∀ ns, x.table ns = y.table ns) : x = y := by
  cases x
  cases y
  congr
  · exact h .type
  · exact h .typeOperator
  · exact h .typeClass
  · exact h .value
  · exact h .valueOperator

def get? (x : Interface) (ns : Namespace) (name : String) : Option (Entry ns) :=
  (x.table ns)[name]?

theorem ext_get? {x y : Interface} (h : ∀ ns name, x.get? ns name = y.get? ns name) : x = y :=
  ext_table fun ns => ExtTreeMap.ext_getElem? fun {name} => h ns name

@[simp] theorem get?_empty (ns : Namespace) (name : String) :
    (∅ : Interface).get? ns name = none := by
  simp [get?]

/-- A later entry for a name replaces the earlier one. -/
def insert (x : Interface) (ns : Namespace) (name : String) (e : Entry ns) : Interface :=
  x.withTable ns ((x.table ns).insert name e)

theorem get?_insert (x : Interface) (ns : Namespace) (name other : String) (e : Entry ns) :
    (x.insert ns name e).get? ns other = if name = other then some e else x.get? ns other := by
  simp [get?, insert, ExtTreeMap.getElem?_insert]

theorem get?_insert_of_ne (x : Interface) {ns ms : Namespace} (name other : String) (e : Entry ns)
    (h : ms ≠ ns) : (x.insert ns name e).get? ms other = x.get? ms other := by
  simp [get?, insert, table_withTable_of_ne x _ h]

def erase (x : Interface) (ns : Namespace) (name : String) : Interface :=
  x.withTable ns ((x.table ns).erase name)

/-- Both tables together; where they disagree the entry of `upper` stands. -/
def overlay (lower upper : Interface) : Interface :=
  ofTables fun ns => lower.table ns ∪ upper.table ns

@[simp] theorem get?_overlay (lower upper : Interface) (ns : Namespace) (name : String) :
    (lower.overlay upper).get? ns name = (upper.get? ns name).or (lower.get? ns name) := by
  simp [get?, overlay, ExtTreeMap.getElem?_union]

def origin? (x : Interface) (ns : Namespace) (name : String) : Option Origin :=
  (x.get? ns name).map Entry.origin

def contains (x : Interface) (ns : Namespace) (name : String) : Bool := (x.get? ns name).isSome

/-- The names of a namespace, in increasing order. -/
def names (x : Interface) (ns : Namespace) : List String := (x.table ns).keys

def size (x : Interface) (ns : Namespace) : Nat := (x.table ns).size

def totalSize (x : Interface) : Nat := Namespace.all.foldl (fun n ns => n + x.size ns) 0

def isEmpty (x : Interface) : Bool := x.totalSize == 0

def constructors? (x : Interface) (type : String) : Option (List String) :=
  (x.get? .type type).map Entry.constructors

def hasConstructor (x : Interface) (type constructor : String) : Bool :=
  ((x.constructors? type).getD []).contains constructor

/-- The first type by name that exports the constructor. -/
def owner? (x : Interface) (constructor : String) : Option String :=
  (x.table .type).toList.find? (fun e => e.2.constructors.contains constructor) |>.map Prod.fst

end Interface

end ModuleExports
