import ModuleExports.Build.Report
import ModuleExports.Proofs.Graph.Reachability
import ModuleExports.Proofs.Outcome.Result

/-!
What entering an outcome does to a report. Main statements: it settles what became of the one module
and of no other, and it blocks the modules that depend on it when the outcome is a failure.
-/
namespace ModuleExports
open Std

/-- What has become of a module so far. -/
@[ext] structure Standing where
  table : Option Interface := none
  failure : Option Failure := none
  warnings : Option (List Warning) := none

/-- What becomes of a module whose resolution came to `o`. -/
def Outcome.standing (o : Outcome Interface) : Standing where
  table := o.result.toOption
  failure := match o.result with
    | .ok _ => none
    | .error e => some e
  warnings := if o.log.isEmpty then none else some o.log

namespace Outcome
variable {o : Outcome Interface}

theorem table_standing {x : Interface} : o.standing.table = some x ↔ o.result = .ok x := by
  cases h : o.result <;> simp [standing, h, Except.toOption]

theorem failure_standing {e : Failure} : o.standing.failure = some e ↔ o.result = .error e := by
  cases h : o.result <;> simp [standing, h]

theorem warnings_standing {ws : List Warning} :
    o.standing.warnings = some ws ↔ ws ≠ [] ∧ o.log = ws := by
  by_cases h : o.log = []
  · simp only [standing, h, List.isEmpty_nil, ↓reduceIte, reduceCtorEq, false_iff]
    rintro ⟨hne, rfl⟩
    exact hne rfl
  · simp only [standing, List.isEmpty_iff, h, ↓reduceIte, Option.some.injEq]
    constructor
    · rintro rfl
      exact ⟨h, rfl⟩
    · exact And.right

end Outcome

namespace Report
variable {r r' : Report} {g : DependencyGraph} {m k : ModuleName} {o : Outcome Interface}

def standing (r : Report) (m : ModuleName) : Standing :=
  ⟨r.env.get? m, r.failures[m]?, r.warnings[m]?⟩

/-- A module of which nothing has become yet. -/
def Pending (r : Report) (m : ModuleName) : Prop := r.standing m = {}

theorem succeeded_iff_forall_not_mem :
    r.succeeded ↔ (∀ m, m ∉ r.failures) ∧ ∀ m, m ∉ r.blocked := by
  rw [succeeded, Bool.and_eq_true, ExtTreeMap.isEmpty_iff, ExtTreeSet.isEmpty_iff,
    ExtTreeMap.eq_empty_iff_forall_not_mem, ExtTreeSet.eq_empty_iff_forall_not_mem]

@[simp] theorem env_enterWarnings (ws : List Warning) : (r.enterWarnings m ws).env = r.env := by
  unfold enterWarnings
  split <;> rfl

@[simp] theorem failures_enterWarnings (ws : List Warning) :
    (r.enterWarnings m ws).failures = r.failures := by
  unfold enterWarnings
  split <;> rfl

@[simp] theorem blocked_enterWarnings (ws : List Warning) :
    (r.enterWarnings m ws).blocked = r.blocked := by
  unfold enterWarnings
  split <;> rfl

theorem warnings_enterWarnings (ws : List Warning) : (r.enterWarnings m ws).warnings[k]? =
    if m = k ∧ ws ≠ [] then some ws else r.warnings[k]? := by
  unfold enterWarnings
  split
  next h => simp [List.isEmpty_iff.1 h]
  next h =>
    have hws : ws ≠ [] := by simpa using h
    simp [ExtTreeMap.getElem?_insert, hws]

/-- All that entering an outcome can do. -/
theorem enter_eq_ok (h : r.enter g m o = .ok r') :
    (∃ x env, o.result = .ok x ∧ r.env.commit m x = .ok env ∧
      r' = { r.enterWarnings m o.log with env }) ∨
    ∃ e, o.result = .error e ∧ e.isDefect = false ∧ r' = { r.enterWarnings m o.log with
      failures := r.failures.insert m e, blocked := r.blocked ∪ g.allDependents m } := by
  unfold enter at h
  split at h
  next x hx =>
    obtain ⟨env, he, h⟩ := except_bind_eq_ok.1 h
    exact .inl ⟨x, env, hx, he, (except_pure_eq_ok.1 h).symm⟩
  next e he =>
    split at h
    next => cases h
    next hd =>
      refine .inr ⟨e, he, by simpa using hd, ?_⟩
      simpa using (Except.ok.inj h).symm

theorem within_enter (h : r.enter g m o = .ok r') : r.env.Within r'.env := by
  obtain ⟨x, env, -, hc, rfl⟩ | ⟨e, -, -, rfl⟩ := enter_eq_ok h
  · exact Environment.within_commit hc
  · simpa using Environment.Within.refl r.env

theorem get?_env_enter_of_ne (h : r.enter g m o = .ok r') (hk : m ≠ k) :
    r'.env.get? k = r.env.get? k := by
  obtain ⟨x, env, -, hc, rfl⟩ | ⟨e, -, -, rfl⟩ := enter_eq_ok h
  · rw [Environment.get?_commit hc, if_neg hk]
  · simp

/-- Entering an outcome settles the standing of the module, and of no other. -/
theorem standing_enter (h : r.enter g m o = .ok r') (hm : r.Pending m) (k : ModuleName) :
    r'.standing k = if m = k then o.standing else r.standing k := by
  have hp : r.env.get? m = none ∧ r.failures[m]? = none ∧ r.warnings[m]? = none := by
    simpa [Pending, standing] using hm
  obtain ⟨x, env, ho, hc, rfl⟩ | ⟨e, ho, -, rfl⟩ := enter_eq_ok h
  · by_cases hk : m = k
    · subst hk
      simp [standing, Outcome.standing, Environment.get?_commit hc, warnings_enterWarnings, ho, hp,
        Except.toOption]
    · simp [standing, Environment.get?_commit hc, warnings_enterWarnings, hk]
  · by_cases hk : m = k
    · subst hk
      simp [standing, Outcome.standing, warnings_enterWarnings, ho, hp, Except.toOption]
    · simp [standing, warnings_enterWarnings, ExtTreeMap.getElem?_insert, hk]

/-- A failure blocks the modules that depend on the one that failed. -/
theorem mem_blocked_enter (h : r.enter g m o = .ok r') :
    k ∈ r'.blocked ↔ k ∈ r.blocked ∨ o.standing.failure.isSome ∧ k ≠ m ∧ g.Reaches k m := by
  obtain ⟨x, env, ho, -, rfl⟩ | ⟨e, ho, -, rfl⟩ := enter_eq_ok h
  · simp [Outcome.standing, ho]
  · simp [Outcome.standing, ho, DependencyGraph.mem_allDependents]

end Report

end ModuleExports
