import ModuleExports.Build.Report

/-!
Building a program, module after module or the modules of a layer side by side, as many at once as
there are permits. A run logs each attempt at a module with the environment that it was given, also
when the build is broken off.
-/
namespace ModuleExports

/-- The resolution of a module is called for in an environment. -/
structure Attempt where
  unit : ScheduledModule
  env : Environment
  deriving Inhabited

/-- What an attempt at a module comes to. -/
def Attempt.outcome (settings : Settings) (a : Attempt) : Outcome Interface :=
  a.unit.resolve a.env settings

abbrev Run := Logged Attempt Failure

/-- A module whose resolution has come to its end. -/
structure Finished where
  module : ModuleName
  outcome : Outcome Interface

def Attempt.finish (settings : Settings) (a : Attempt) : Finished :=
  ⟨a.unit.name, a.outcome settings⟩

/-- The order in which the resolutions of a layer come to their end. -/
structure Arrival where
  order : List Finished → List Finished
  perm : ∀ fs, (order fs).Perm fs

def Arrival.asStarted : Arrival := ⟨id, fun _ => .refl _⟩

/-- A semaphore counts its permits in a word of which three bits serve another end. -/
def maxPermits : Nat := (UInt64.size - 1) >>> 3

/-- The permits to resolve modules side by side. A module needs one for as long as it takes. -/
structure Permits where
  count : Nat
  pos : 0 < count
  le_max : count ≤ maxPermits

/-- As many permits as modules may be resolved at once, if a semaphore can hold them. -/
def Settings.permits? (c : Settings) : Option Permits :=
  if h : max 1 c.maxParallel.toNat ≤ maxPermits then
    some ⟨max 1 c.maxParallel.toNat, Nat.lt_of_lt_of_le Nat.one_pos (Nat.le_max_left _ _), h⟩
  else none

theorem Settings.permits?_eq_none_iff {c : Settings} :
    c.permits? = none ↔ maxPermits < c.maxParallel.toNat := by
  have hone : 1 ≤ maxPermits := by decide
  simp only [permits?, dite_eq_right_iff, reduceCtorEq, imp_false]
  omega

theorem Settings.exists_permits {c : Settings} (h : c.maxParallel.toNat ≤ maxPermits) :
    ∃ permits, c.permits? = some permits :=
  Option.ne_none_iff_exists'.1 (mt permits?_eq_none_iff.1 (Nat.not_lt.2 h))

namespace Build

/-- Calls for the resolution of a module in an environment. -/
def attempt (s : Schedule) (env : Environment) (m : ModuleName) : Run Attempt := do
  let a : Attempt := ⟨← .ofExcept (s.find m), env⟩
  .emit a
  return a

/-- Resolves one module in the environment built so far, unless it is blocked. -/
def resolveNext (settings : Settings) (s : Schedule) (r : Report) (m : ModuleName) :
    Run Report := do
  if r.blocked.contains m then return r
  let a ← attempt s r.env m
  .ofExcept (r.enter s.graph m (a.outcome settings))

def runSequential (units : List ScheduledModule) (settings : Settings) (env : Environment) :
    Run Report := do
  let s ← .ofExcept (Schedule.make env units)
  s.layers.flatten.foldlM (resolveNext settings s) { env }

/-- Cuts a list into parts of at most `n + 1` members. -/
def batches {α : Type} (n : Nat) (xs : List α) : List (List α) :=
  match xs with
  | [] => []
  | x :: rest => (x :: rest.take n) :: batches n (rest.drop n)
  termination_by xs.length
  decreasing_by exact Nat.lt_succ_of_le (List.drop_sublist n rest).length_le

theorem flatten_batches {α : Type} (n : Nat) (xs : List α) : (batches n xs).flatten = xs := by
  fun_induction batches n xs with
  | case1 => rfl
  | case2 x rest ih => simp [ih]

/-- Brings attempts to their end side by side. -/
def resolveBatch (settings : Settings) (as : List Attempt) : List Finished :=
  (as.map fun a => Task.spawn fun _ => a.finish settings).map Task.get

/-- Brings attempts to their end, no more of them at once than there are permits. -/
def resolveAll (permits : Permits) (settings : Settings) (as : List Attempt) : List Finished :=
  (batches (permits.count - 1) as).flatMap (resolveBatch settings)

/-- What batches and side by side change is the time it takes, not the result. -/
theorem resolveAll_eq_map (permits : Permits) (settings : Settings) (as : List Attempt) :
    resolveAll permits settings as = as.map (Attempt.finish settings) := by
  have h (bs : List Attempt) : resolveBatch settings bs = bs.map (Attempt.finish settings) := by
    simp [resolveBatch, Task.spawn]
  rw [resolveAll, funext h, List.flatMap_def, ← List.map_flatten, flatten_batches]

/-- Resolves the modules of a layer that are not blocked, and enters what they came to in the order
of their names. -/
def resolveLayer (permits : Permits) (arrival : Arrival) (settings : Settings) (s : Schedule)
    (r : Report) (layer : List ModuleName) : Run Report := do
  let due ← (layer.filter (!r.blocked.contains ·)).mapM (attempt s r.env)
  let finished := arrival.order (resolveAll permits settings due)
  let sorted := finished.mergeSort fun a b => (compare a.module b.module).isLE
  .ofExcept (sorted.foldlM (fun r f => r.enter s.graph f.module f.outcome) r)

/-- Without permits there is a panic once the schedule is made, and no run. -/
def runConcurrent (arrival : Arrival) (units : List ScheduledModule) (settings : Settings)
    (env : Environment) : Option (Run Report) :=
  match Schedule.make env units with
  | .error e => some (.fail e)
  | .ok s => settings.permits?.map fun permits =>
      s.layers.foldlM (resolveLayer permits arrival settings s) { env }

/-- Resolves the modules one after another, dependencies first. -/
def sequential (units : List ScheduledModule) (settings : Settings) (env : Environment) :
    Except Failure Report :=
  (runSequential units settings env).result

/-- Resolves the modules layer by layer, each layer in the environment that earlier layers left. -/
def concurrent (arrival : Arrival) (units : List ScheduledModule) (settings : Settings)
    (env : Environment) : Option (Except Failure Report) :=
  (runConcurrent arrival units settings env).map Logged.result

end Build

end ModuleExports
