import Std.Data.ExtTreeMap
import Std.Data.ExtTreeSet

/-!
Module names and names behind an optional qualifier. Both are ordered by code point; an unqualified
name comes before every qualified one.
-/
namespace ModuleExports
open Std

/-- A dotted module name such as `Data.Maybe`. -/
structure ModuleName where
  text : String
  deriving DecidableEq, Inhabited

namespace ModuleName

instance : Ord ModuleName := ⟨compareOn text⟩

instance : TransOrd ModuleName := inferInstanceAs (TransCmp (compareOn text))

instance : LawfulEqOrd ModuleName where
  eq_of_compare h := congrArg mk (LawfulEqOrd.eq_of_compare h)

instance : ToString ModuleName := ⟨text⟩

/-- The parts between the dots; a name without dots is its own single part. -/
def parts (m : ModuleName) : List String := m.text.splitOn "."

/-- The names in the order given, set apart by a comma and a space. -/
def listing (ms : List ModuleName) : String := ", ".intercalate (ms.map text)

end ModuleName

abbrev ModuleSet := ExtTreeSet ModuleName

abbrev ModuleMap (α : Type) := ExtTreeMap ModuleName α

namespace ModuleName

/-- The names in increasing order, however often each is listed. -/
def inOrder (ms : List ModuleName) : List ModuleName :=
  ms.mergeSort fun a b => (compare a b).isLE

/-- The distinct members of a list, in increasing order. -/
def distinct (ms : List ModuleName) : List ModuleName := (ExtTreeSet.ofList ms).toList

@[simp] theorem mem_distinct {m : ModuleName} {ms : List ModuleName} :
    m ∈ distinct ms ↔ m ∈ ms := by
  simp [distinct, ExtTreeSet.mem_toList, ExtTreeSet.mem_ofList]

theorem pairwise_distinct (ms : List ModuleName) :
    (distinct ms).Pairwise fun a b => compare a b = .lt :=
  ExtTreeSet.ordered_toList

/-- The same modules are listed in the same way. -/
theorem distinct_congr {ms ns : List ModuleName} (h : ∀ m, m ∈ ms ↔ m ∈ ns) :
    distinct ms = distinct ns := by
  have hset : ExtTreeSet.ofList ms compare = ExtTreeSet.ofList ns compare := by
    refine ExtTreeSet.ext_mem fun m => ?_
    simp [ExtTreeSet.mem_ofList, h]
  rw [distinct, distinct, hset]

end ModuleName

/-- A name as it is visible in a module, possibly behind a qualifier. -/
structure QualifiedName where
  module : Option ModuleName
  name : String
  deriving DecidableEq, Inhabited

namespace QualifiedName

instance : Ord QualifiedName := ⟨compareLex (compareOn module) (compareOn name)⟩

instance : TransOrd QualifiedName :=
  inferInstanceAs (TransCmp (compareLex (compareOn module) (compareOn name)))

instance : LawfulEqOrd QualifiedName where
  eq_of_compare {a b} h := by
    obtain ⟨h₁, h₂⟩ := Ordering.then_eq_eq.1 h
    cases a
    cases b
    simp_all [compareOn]

def isBare (q : QualifiedName) : Bool := q.module.isNone

def hasQualifier (q : QualifiedName) (m : ModuleName) : Bool := q.module == some m

instance : ToString QualifiedName where
  toString q := match q.module with
    | none => q.name
    | some m => m.text ++ "." ++ q.name

end QualifiedName

end ModuleExports
