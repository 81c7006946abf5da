import ModuleExports.Proofs.Build.Schedule
import ModuleExports.Proofs.Graph.Levels

/-!
When a schedule is refused. Main statement: for one of three reasons, which are tried in turn, and a
schedule is made exactly when there is none of them.
-/
namespace ModuleExports
open Std

namespace Schedule
variable {env : Environment} {units : List ScheduledModule} {known : ModuleMap ScheduledModule}

/-- Two modules are scheduled under one name, or one under a name that is there already. -/
def Clash (env : Environment) (units : List ScheduledModule) : Prop :=
  ¬ (names units).Nodup ∨ ∃ m ∈ names units, ∃ x, env.get? m = some x

/-- Some module depends on one that is neither scheduled nor there already. -/
def Missing (env : Environment) (units : List ScheduledModule) : Prop :=
  ∃ u ∈ units, ∃ d ∈ u.dependencies, d ∉ names units ∧ env.get? d = none

/-- Some module depends on itself, directly or through others. -/
def Cyclic (units : List ScheduledModule) : Prop :=
  ∃ m, Relation.TransGen (Depends units) m m

theorem failsOnly_index :
    FailsOnly (fun e => ∃ m, e = .internal (.scheduledTwice m)) (index env units) := by
  refine .foldlM fun known u _ => ?_
  split
  · exact .error ⟨u.name, rfl⟩
  · exact .ok _

theorem exists_index (hf : ∀ m ∈ names units, env.get? m = none) (hn : (names units).Nodup) :
    ∃ known, index env units = .ok known := by
  induction units using List.reverseRecOn with
  | nil => exact ⟨∅, rfl⟩
  | append_singleton units u ih =>
    simp only [names, List.map_append, List.map_cons, List.map_nil, List.nodup_append] at hf hn
    obtain ⟨known, hk⟩ := ih (fun m hm => hf m (List.mem_append_left _ hm)) hn.1
    have hu : env.contains u.name = false := by
      simp [Environment.contains_eq_isSome, hf u.name]
    have hknown : known.contains u.name = false := by
      rw [Bool.eq_false_iff, ne_eq, contains_index hk]
      exact fun hm => hn.2.2 u.name hm u.name List.mem_cons_self rfl
    refine ⟨known.insert u.name u, ?_⟩
    rw [index, List.foldlM_append]
    refine except_bind_eq_ok.2 ⟨known, hk, ?_⟩
    simp only [List.foldlM_cons, List.foldlM_nil, hu, hknown, Bool.or_self, Bool.false_eq_true,
      ↓reduceIte]
    rfl

theorem exists_index_iff : (∃ known, index env units = .ok known) ↔ ¬ Clash env units := by
  constructor
  · rintro ⟨known, hk⟩ (hn | ⟨m, hm, x, hx⟩)
    · exact hn (index_eq_ok hk).2.1
    · obtain ⟨u, hu, rfl⟩ := mem_names.1 hm
      simp [(index_eq_ok hk).1 u hu] at hx
  · intro hc
    rw [Clash, not_or, not_not] at hc
    refine exists_index (fun m hm => ?_) hc.1
    exact Option.eq_none_iff_forall_ne_some.2 fun x hx => hc.2 ⟨m, hm, x, hx⟩

theorem failsOnly_checkDependencies {u : ScheduledModule} :
    FailsOnly (fun e => ∃ d m, e = .internal (.unknownDependency d m))
      (checkDependencies env known u) := by
  unfold checkDependencies
  split
  next d _ => exact .error ⟨d, u.name, rfl⟩
  next => exact .ok _

theorem forM_checkDependencies_eq_ok (hk : index env units = .ok known) :
    units.forM (checkDependencies env known) = .ok () ↔ ¬ Missing env units := by
  simp only [forM_eq_ok, checkDependencies_eq_ok hk, Missing, not_exists, not_and]
  refine forall₂_congr fun u _ => forall₂_congr fun d _ => ?_
  rw [← Option.isSome_iff_exists, ← Option.ne_none_iff_isSome, or_iff_not_imp_left]

theorem not_reaches_dependencyGraph_iff :
    (∀ m, ¬ (dependencyGraph units).Reaches m m) ↔ ¬ Cyclic units := by
  simp only [Cyclic, DependencyGraph.Reaches, mem_edges_dependencyGraph, not_exists]

/-- Past the index, a schedule is refused for its dependencies, or else for their cycles. -/
theorem make_of_index (hk : index env units = .ok known) : make env units =
    units.forM (checkDependencies env known) >>= fun _ =>
      (dependencyGraph units).layers >>= fun ls => pure ⟨dependencyGraph units, ls, known⟩ := by
  rw [make, hk]
  rfl

theorem make_of_clash (h : Clash env units) :
    ∃ m, make env units = .error (.internal (.scheduledTwice m)) := by
  cases hk : index env units with
  | ok known => exact absurd h (exists_index_iff.1 ⟨known, hk⟩)
  | error e =>
    obtain ⟨m, rfl⟩ := failsOnly_index e hk
    exact ⟨m, by rw [make, hk]; rfl⟩

theorem make_of_missing (hc : ¬ Clash env units) (h : Missing env units) :
    ∃ d m, make env units = .error (.internal (.unknownDependency d m)) := by
  obtain ⟨known, hk⟩ := exists_index_iff.2 hc
  cases hcheck : units.forM (checkDependencies env known) with
  | ok _ => exact absurd h ((forM_checkDependencies_eq_ok hk).1 hcheck)
  | error e =>
    obtain ⟨d, m, rfl⟩ := FailsOnly.forM (fun _ _ => failsOnly_checkDependencies) e hcheck
    exact ⟨d, m, by rw [make_of_index hk, hcheck]; rfl⟩

theorem make_of_cyclic (hc : ¬ Clash env units) (hm : ¬ Missing env units) (h : Cyclic units) :
    make env units = .error (.circularDependency (dependencyGraph units).cycle) := by
  obtain ⟨known, hk⟩ := exists_index_iff.2 hc
  have hcheck := (forM_checkDependencies_eq_ok hk).2 hm
  cases hl : (dependencyGraph units).layers with
  | ok ls =>
    have hacyclic := DependencyGraph.exists_layers_iff.1 ⟨ls, hl⟩
    exact absurd h (not_reaches_dependencyGraph_iff.1 hacyclic)
  | error e =>
    obtain rfl := DependencyGraph.failsOnly_peel e hl
    rw [make_of_index hk, hcheck, hl]
    rfl

/-- A schedule is made exactly when nothing stands in its way. -/
theorem exists_make_iff : (∃ s, make env units = .ok s) ↔
    ¬ Clash env units ∧ ¬ Missing env units ∧ ¬ Cyclic units := by
  constructor
  · intro ⟨s, h⟩
    obtain ⟨known, hk, h⟩ := except_bind_eq_ok.1 h
    obtain ⟨_, hcheck, h⟩ := except_bind_eq_ok.1 h
    obtain ⟨ls, hl, -⟩ := except_bind_eq_ok.1 h
    exact ⟨exists_index_iff.1 ⟨known, hk⟩, (forM_checkDependencies_eq_ok hk).1 hcheck,
      not_reaches_dependencyGraph_iff.1 (DependencyGraph.exists_layers_iff.1 ⟨ls, hl⟩)⟩
  · intro ⟨hc, hm, hcy⟩
    obtain ⟨known, hk⟩ := exists_index_iff.2 hc
    obtain ⟨ls, hl⟩ := DependencyGraph.exists_layers_iff.2 (not_reaches_dependencyGraph_iff.2 hcy)
    exact ⟨_, by rw [make_of_index hk, (forM_checkDependencies_eq_ok hk).2 hm, hl]; rfl⟩

/-- All the failures that a schedule can be refused with. -/
theorem failsOnly_make : FailsOnly (fun e => (∃ m, e = .internal (.scheduledTwice m)) ∨
    (∃ d m, e = .internal (.unknownDependency d m)) ∨ ∃ ms, e = .circularDependency ms)
    (make env units) := by
  refine .bind (failsOnly_index.imp fun _ he => .inl he) fun known _ => ?_
  refine .bind ((FailsOnly.forM fun _ _ => failsOnly_checkDependencies).imp fun _ he =>
    .inr (.inl he)) fun _ _ => ?_
  exact .bind (DependencyGraph.failsOnly_peel.imp fun _ he => .inr (.inr ⟨_, he⟩)) fun _ _ => .ok _

end Schedule

end ModuleExports
