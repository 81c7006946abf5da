import ModuleExports.Outcome.Failure
import ModuleExports.Interface.Basic

/-!
The tables of the modules resolved so far. A table is committed once and never replaced. Main
statement: committing a module keeps all that was there.
-/
namespace ModuleExports
open Std

structure Environment where
  modules : ModuleMap Interface := ∅
  deriving DecidableEq, Inhabited

namespace Environment

def get? (env : Environment) (m : ModuleName) : Option Interface := env.modules[m]?

def contains (env : Environment) (m : ModuleName) : Bool := env.modules.contains m

def size (env : Environment) : Nat := env.modules.size

def isEmpty (env : Environment) : Bool := env.modules.isEmpty

/-- In increasing order. -/
def names (env : Environment) : List ModuleName := env.modules.keys

/-- The table of a module that should have one. -/
def expect (env : Environment) (m : ModuleName) : Except Failure Interface :=
  match env.get? m with
  | some x => .ok x
  | none => .error (.internal (.missingModule m))

def commit (env : Environment) (m : ModuleName) (x : Interface) : Except Failure Environment :=
  if env.contains m then .error (.internal (.committedTwice m)) else .ok ⟨env.modules.insert m x⟩

theorem contains_eq_isSome (env : Environment) (m : ModuleName) :
    env.contains m = (env.get? m).isSome :=
  ExtTreeMap.contains_eq_isSome_getElem?

theorem get?_commit {env env' : Environment} {m : ModuleName} {x : Interface}
    (h : env.commit m x = .ok env') (n : ModuleName) :
    env'.get? n = if m = n then some x else env.get? n := by
  unfold commit at h
  split at h
  · cases h
  · cases h
    simp [get?, ExtTreeMap.getElem?_insert]

section Within
variable {env env' : Environment} {m : ModuleName}

/-- All that is in the one environment is in the other. -/
def Within (env env' : Environment) : Prop :=
  ∀ m x, env.get? m = some x → env'.get? m = some x

theorem Within.refl (env : Environment) : env.Within env := fun _ _ h => h

theorem Within.trans {env'' : Environment} (h : env.Within env') (h' : env'.Within env'') :
    env.Within env'' :=
  fun m x hx => h' m x (h m x hx)

theorem get?_of_commit {x : Interface} (h : env.commit m x = .ok env') : env.get? m = none := by
  unfold commit at h
  split at h
  next => cases h
  next hc => simpa [contains_eq_isSome] using hc

theorem within_commit {x : Interface} (h : env.commit m x = .ok env') : env.Within env' := by
  intro k y hy
  have hk : m ≠ k := by
    rintro rfl
    simp [get?_of_commit h] at hy
  rw [get?_commit h, if_neg hk, hy]

end Within

end Environment

end ModuleExports
