/-!
The five namespaces in which a module exports names, and the seven kinds of names that messages
speak of. Each is ordered as it is listed.
-/
namespace ModuleExports
open Std

/-- Names collide only within one namespace. -/
inductive Namespace where
  | type | typeOperator | typeClass | value | valueOperator
  deriving DecidableEq, Inhabited

namespace Namespace

def all : List Namespace := [type, typeOperator, typeClass, value, valueOperator]

theorem mem_all (ns : Namespace) : ns ∈ all := by cases ns <;> simp [all]

def rank : Namespace → Nat
  | type => 0
  | typeOperator => 1
  | typeClass => 2
  | value => 3
  | valueOperator => 4

theorem rank_inj {a b : Namespace} (h : a.rank = b.rank) : a = b := by
  cases a <;> cases b <;> simp_all [rank]

instance : Ord Namespace := ⟨compareOn rank⟩

instance : TransOrd Namespace := inferInstanceAs (TransCmp (compareOn rank))

instance : LawfulEqOrd Namespace where
  eq_of_compare h := rank_inj (LawfulEqOrd.eq_of_compare h)

end Namespace

/-- Constructors belong to their type when exported, but are imported as names of a kind of their
own. -/
inductive NameKind where
  | inNamespace (ns : Namespace)
  | dataConstructor
  | module
  deriving DecidableEq, Inhabited

namespace NameKind

def all : List NameKind := Namespace.all.map inNamespace ++ [dataConstructor, module]

theorem mem_all (k : NameKind) : k ∈ all := by
  cases k with
  | inNamespace ns => simp [all, ns.mem_all]
  | dataConstructor => simp [all]
  | module => simp [all]

def rank : NameKind → Nat
  | inNamespace ns => ns.rank
  | dataConstructor => 5
  | module => 6

theorem rank_inj {a b : NameKind} (h : a.rank = b.rank) : a = b := by
  cases a with
  | inNamespace x => cases b with
    | inNamespace y => rw [Namespace.rank_inj h]
    | _ => cases x <;> simp [rank, Namespace.rank] at h
  | _ => cases b with
    | inNamespace y => cases y <;> simp [rank, Namespace.rank] at h
    | _ => simp_all [rank]

instance : Ord NameKind := ⟨compareOn rank⟩

instance : TransOrd NameKind := inferInstanceAs (TransCmp (compareOn rank))

instance : LawfulEqOrd NameKind where
  eq_of_compare h := rank_inj (LawfulEqOrd.eq_of_compare h)

/-- How messages call a name of the kind. -/
def label : NameKind → String
  | inNamespace .type => "type"
  | inNamespace .typeOperator => "type operator"
  | inNamespace .typeClass => "type class"
  | inNamespace .value => "value"
  | inNamespace .valueOperator => "operator"
  | dataConstructor => "data constructor"
  | module => "module"

instance : ToString NameKind := ⟨label⟩

instance : Coe Namespace NameKind := ⟨inNamespace⟩

end NameKind

instance : ToString Namespace := ⟨fun ns => (ns : NameKind).label⟩

end ModuleExports
