import Mathlib
import ModuleExports.Proofs.Build.Accounting
import ModuleExports.Proofs.Resolution.Failures

/-!
The order of attempts in a build, whether it succeeds or is broken off. Main statement: a module is
attempted at most once, and only in an environment with the tables of all that it needs.
-/
namespace ModuleExports
open Std

namespace Build
variable {units : List ScheduledModule} {settings : Settings} {env : Environment} {s : Schedule}
  {r q : Report} {permits : Permits} {arrival : Arrival} {run : Run Report}
  {before after past : List Attempt} {a : Attempt} {done rest : List ModuleName}
  {m k d : ModuleName}

/-- The attempt is made when the modules `done` have brought the build to `q` by the attempts
`past`. Its module is among the `rest`, and depends on none of them. -/
structure Starts (settings : Settings) (s : Schedule) (env : Environment)
    (done rest : List ModuleName) (past : List Attempt) (q : Report) (a : Attempt) : Prop where
  modules : s.layers.flatten = done ++ rest
  progress : Progress settings s { env } done past q
  sees : a.env = q.env
  find : s.find a.unit.name = .ok a.unit
  due : a.unit.name ∈ rest
  free : a.unit.name ∉ q.blocked
  ahead : ∀ k ∈ rest, ¬ s.graph.Reaches a.unit.name k

/-- A build logs nothing without a schedule, and else what its way through the schedule logs. -/
theorem log_cases (hrun : run = runSequential units settings env ∨
    runConcurrent arrival units settings env = some run) :
    run.log = [] ∨ ∃ s, Schedule.make env units = .ok s ∧
      (run.log = (s.layers.flatten.foldlM (advance Report.env settings s) { env }).log ∨
        ∃ permits, run.log =
          (s.layers.foldlM (resolveLayer permits arrival settings s) { env }).log) := by
  rcases hrun with rfl | hrun
  · cases hmake : Schedule.make env units with
    | error e =>
      left
      rw [runSequential, hmake, Logged.bind_of_error rfl]
      rfl
    | ok s =>
      refine .inr ⟨s, rfl, .inl ?_⟩
      rw [runSequential, hmake, Logged.bind_of_ok rfl]
      rfl
  · obtain ⟨e, -, rfl⟩ | ⟨s, permits, hmake, -, rfl⟩ := runConcurrent_eq_some hrun
    · exact .inl rfl
    · exact .inr ⟨s, hmake, .inr ⟨permits, rfl⟩⟩

/-- A module in turn is attempted once at most, in the environment built so far. -/
theorem log_advance_cases (settings : Settings) (s : Schedule) (q : Report) (m : ModuleName) :
    (advance Report.env settings s q m).log = [] ∨
    ∃ u, s.find m = .ok u ∧ m ∉ q.blocked ∧
      (advance Report.env settings s q m).log = [⟨u, q.env⟩] := by
  by_cases hm : m ∈ q.blocked
  · rw [advance_of_mem hm]
    exact .inl rfl
  · rw [advance_of_notMem hm]
    cases hu : s.find m with
    | error e => exact .inl rfl
    | ok u => exact .inr ⟨u, rfl, hm, rfl⟩

/-- The modules of a layer are attempted once at most, in the environment that it began with. -/
theorem exists_log_resolveLayer (permits : Permits) (arrival : Arrival) (settings : Settings)
    (q : Report) (hs : Schedule.Made env units s) {l : List ModuleName} (hl : l ∈ s.layers) :
    ∃ us, (resolveLayer permits arrival settings s q l).log = us.map (⟨·, q.env⟩) ∧
      (Schedule.names us).Sublist l ∧ ∀ u ∈ us, s.find u.name = .ok u ∧ u.name ∉ q.blocked := by
  obtain ⟨us, hus, hlayer⟩ := exists_resolveLayer_eq permits arrival settings q hs hl
  refine ⟨us, by rw [hlayer], hs.names_of_mapM hus ▸ List.filter_sublist, fun u hu => ?_⟩
  obtain ⟨m, hm, hfind⟩ := (mem_of_mapM_eq_ok hus).1 hu
  obtain ⟨-, hb⟩ := List.mem_filter.1 hm
  obtain rfl := hs.name_of_find m u hfind
  refine ⟨hfind, fun hblocked => ?_⟩
  simp [ExtTreeSet.contains_iff_mem.2 hblocked] at hb

/-- A build attempts modules in the order of its layers, each at most once. -/
theorem nodup_log (hrun : run = runSequential units settings env ∨
    runConcurrent arrival units settings env = some run) : (run.log.map (·.unit.name)).Nodup := by
  rcases log_cases hrun with hlog | ⟨s, hmake, hlog⟩
  · simp [hlog]
  have hs := Schedule.made_of_make hmake
  refine List.Sublist.nodup ?_ hs.nodup_flatten
  rcases hlog with hlog | ⟨permits, hlog⟩
  · have hstep (q : Report) (m : ModuleName) :
        ((advance Report.env settings s q m).log.map (·.unit.name)).Sublist [m] := by
      rcases log_advance_cases settings s q m with h | ⟨u, hu, -, h⟩
      · simp [h]
      · simp [h, hs.name_of_find m u hu]
    rw [hlog]
    simpa using Logged.log_foldlM_sublist fun q m _ => hstep q m
  · have hstep (q : Report) : ∀ l ∈ s.layers,
        ((resolveLayer permits arrival settings s q l).log.map (·.unit.name)).Sublist l := by
      intro l hl
      obtain ⟨us, hus, hnames, -⟩ := exists_log_resolveLayer permits arrival settings q hs hl
      rw [hus, List.map_map]
      exact hnames
    rw [hlog]
    simpa [List.flatMap_def] using Logged.log_foldlM_sublist hstep

/-- An attempt in turn starts from what the modules before it have come to. -/
theorem exists_starts_in_turn (hs : Schedule.Made env units s)
    (h : (s.layers.flatten.foldlM (advance Report.env settings s) { env }).log =
      before ++ a :: after) : ∃ done rest past q, past ⊆ before ∧
        Starts settings s env done rest past q a := by
  obtain ⟨done, m, rest, q, own, later, hms, hq, rfl, hm⟩ := Logged.exists_step_of_log_foldlM h
  rcases log_advance_cases settings s q m with hlog | ⟨u, hu, hb, hlog⟩
  · simp [hm] at hlog
  have ha : a ∈ [(⟨u, q.env⟩ : Attempt)] := by simp [← hlog, hm]
  obtain rfl := List.mem_singleton.1 ha
  obtain rfl := hs.name_of_find m u hu
  exact ⟨done, u.name :: rest, _, q, List.subset_append_left _ _, hms,
    progress_of_foldlM (fun q _ => .refl q.env) hq, rfl, hu, List.mem_cons_self, hb,
    fun _ => hs.not_reaches_ahead hms⟩

/-- An attempt in a layer starts from what the layers before it have come to. -/
theorem exists_starts_in_layer (hs : Schedule.Made env units s)
    (h : (s.layers.foldlM (resolveLayer permits arrival settings s) { env }).log =
      before ++ a :: after) : ∃ done rest past q, past ⊆ before ∧
        Starts settings s env done rest past q a := by
  obtain ⟨done, l, rest, q, own, later, hls, hq, rfl, hl⟩ := Logged.exists_step_of_log_foldlM h
  have hmem : ∀ k ∈ done ++ l :: rest, k ∈ s.layers := fun k hk => hls ▸ hk
  obtain ⟨us, hlog, hnames, hus⟩ :=
    exists_log_resolveLayer permits arrival settings q hs (hmem l (by simp))
  have ha : a ∈ us.map (⟨·, q.env⟩) := by simp [← hlog, hl]
  obtain ⟨u, hu, rfl⟩ := List.mem_map.1 ha
  have hul : u.name ∈ l := hnames.subset (List.mem_map_of_mem hu)
  have hlayered := hs.layered
  rw [hls] at hlayered
  refine ⟨done.flatten, (l :: rest).flatten, _, q, List.subset_append_left _ _, ?_,
    progress_of_layers hs (fun k hk => hmem k (List.mem_append_left _ hk)) hq, rfl, (hus u hu).1,
    List.mem_append_left _ hul, (hus u hu).2, fun k hk => hlayered.not_reaches_ahead hul hk⟩
  rw [hls, List.flatten_append]

/-- Every attempt that a build logs starts from what the build has come to before. -/
theorem exists_starts (hrun : run = runSequential units settings env ∨
    runConcurrent arrival units settings env = some run) (h : run.log = before ++ a :: after) :
    ∃ s, Schedule.make env units = .ok s ∧ ∃ done rest past q, past ⊆ before ∧
      Starts settings s env done rest past q a := by
  rcases log_cases hrun with hlog | ⟨s, hmake, hlog | ⟨permits, hlog⟩⟩
  · simp [hlog] at h
  · exact ⟨s, hmake, exists_starts_in_turn (Schedule.made_of_make hmake) (hlog ▸ h)⟩
  · exact ⟨s, hmake, exists_starts_in_layer (Schedule.made_of_make hmake) (hlog ▸ h)⟩

namespace Starts
variable (hs : Schedule.Made env units s) (h : Starts settings s env done rest past q a)
include hs h

theorem unit_mem : a.unit ∈ units := ((hs.find _ _).1 h.find).1

omit hs in
theorem base : env.Within a.env := h.sees ▸ h.progress.within

theorem notMem_done : a.unit.name ∉ done := by
  have hn := hs.nodup_flatten
  rw [h.modules, List.nodup_append] at hn
  exact fun hd => hn.2.2 _ hd _ h.due rfl

theorem mem_done (hk : s.graph.Reaches a.unit.name k) : k ∈ done :=
  hs.mem_behind h.modules h.ahead hk

theorem standing :
    (∀ k, k ∉ past.map (·.unit.name) → q.standing k = ({ env } : Report).standing k) ∧
      ∀ b ∈ past, q.standing b.unit.name = (b.outcome settings).standing := by
  have hn := hs.nodup_flatten
  rw [h.modules, List.nodup_append] at hn
  refine h.progress.standing hs.name_of_find hn.1 fun m hm => pending_of_made hs ?_
  rw [h.modules]
  exact List.mem_append_left rest hm

/-- The environment of an attempt has no table of the attempted module. -/
theorem get?_self : a.env.get? a.unit.name = none := by
  have hpast : a.unit.name ∉ past.map (·.unit.name) := fun hm =>
    h.notMem_done hs ((h.progress.names_sublist hs.name_of_find).subset hm)
  have hst := congrArg Standing.table ((h.standing hs).1 _ hpast)
  rw [h.sees]
  exact hst.trans (hs.fresh _ (h.unit_mem hs))

/-- What the attempted module depends on was attempted before, and has its table by then. -/
theorem published (hk : s.graph.Reaches a.unit.name k) : ∃ b ∈ past, ∃ x, b.unit.name = k ∧
    (b.outcome settings).result = .ok x ∧ a.env.get? k = some x := by
  have hdone := h.mem_done hs hk
  -- A failure among the dependencies would have blocked the module.
  have hok : ∀ b ∈ past, s.graph.Reaches a.unit.name b.unit.name →
      ¬ (b.outcome settings).standing.failure.isSome := by
    intro b hb hr hf
    refine h.free ((h.progress.mem_blocked hs.name_of_find).2 (.inr ⟨b, hb, hf, ?_, hr⟩))
    intro heq
    exact h.notMem_done hs (heq ▸ h.mem_done hs hr)
  rcases h.progress.attempted_or_blocked hs.name_of_find hdone with hk' | hblocked
  · obtain ⟨b, hb, rfl⟩ := List.mem_map.1 hk'
    have hst := congrArg Standing.table ((h.standing hs).2 b hb)
    have hnone := hok b hb hk
    cases hres : (b.outcome settings).result with
    | error e => simp [Outcome.failure_standing.2 hres] at hnone
    | ok x =>
      refine ⟨b, hb, x, rfl, hres, ?_⟩
      rw [h.sees]
      exact hst.trans (Outcome.table_standing.2 hres)
  · rcases (h.progress.mem_blocked hs.name_of_find).1 hblocked with hnil | ⟨b, hb, hf, -, hr⟩
    · simp at hnil
    · exact absurd hf (hok b hb (hk.trans hr))

end Starts

section Log
variable (hrun : run = runSequential units settings env ∨
  runConcurrent arrival units settings env = some run)
include hrun

theorem exists_starts_of_mem (ha : a ∈ run.log) : ∃ s, Schedule.Made env units s ∧
    ∃ done rest past q, Starts settings s env done rest past q a := by
  obtain ⟨before, after, h⟩ := List.append_of_mem ha
  obtain ⟨s, hmake, done, rest, past, q, -, hst⟩ := exists_starts hrun h
  exact ⟨s, Schedule.made_of_make hmake, done, rest, past, q, hst⟩

/-- What the module of an attempt needs has its table by then. -/
theorem exists_table_of_needs (h : run.log = before ++ a :: after)
    (hd : Schedule.Needs units a.unit.name d) : ∃ x, a.env.get? d = some x ∧
      (env.get? d = some x ∨
        ∃ b ∈ before, b.unit.name = d ∧ (b.outcome settings).result = .ok x) := by
  obtain ⟨s, hmake, done, rest, past, q, hsub, hst⟩ := exists_starts hrun h
  have hs := Schedule.made_of_make hmake
  rcases Schedule.depends_or_known_of_needs hmake hd with hd | ⟨x, hx⟩
  · obtain ⟨b, hb, x, hbd, hres, hx⟩ := hst.published hs (hs.reaches_iff.2 hd)
    exact ⟨x, hx, .inr ⟨b, hsub hb, hbd, hres⟩⟩
  · exact ⟨x, hst.base d x hx, .inl hx⟩

/-- No module is attempted that needs one which failed. -/
theorem not_needs_of_error {b : Attempt} (ha : a ∈ run.log) (hb : b ∈ run.log) {e : Failure}
    (he : (b.outcome settings).result = .error e) :
    ¬ Schedule.Needs units a.unit.name b.unit.name := by
  intro hneeds
  obtain ⟨before, after, h⟩ := List.append_of_mem ha
  obtain ⟨x, -, hx | ⟨c, hc, hcb, hres⟩⟩ := exists_table_of_needs hrun h hneeds
  · obtain ⟨s, hs, done, rest, past, q, hst⟩ := exists_starts_of_mem hrun hb
    simp [hs.fresh _ (hst.unit_mem hs)] at hx
  · -- The earlier attempt at the module is the one that failed.
    have hc : c ∈ run.log := h ▸ List.mem_append_left _ hc
    obtain rfl := List.inj_on_of_nodup_map (nodup_log hrun) hc hb hcb
    simp [he] at hres

end Log

theorem get?_eq_none_of_missingModule
    (h : (a.outcome settings).result = .error (.internal (.missingModule d))) :
    a.env.get? d = none := by
  cases ModuleSource.failsOnly_resolve _ h with
  | own h => cases h
  | missingModule _ _ _ hn => exact hn

/-- How the attempts of a build of `units` on top of `env` stand in time. -/
structure InOrder (units : List ScheduledModule) (settings : Settings) (env : Environment)
    (attempts : List Attempt) : Prop where
  once : (attempts.map (·.unit.name)).Nodup
  scheduled : ∀ a ∈ attempts, a.unit ∈ units
  /-- The environment of an attempt lacks the attempted module and nothing that was there before. -/
  new : ∀ a ∈ attempts, a.env.get? a.unit.name = none
  base : ∀ a ∈ attempts, env.Within a.env
  /-- All that a module needs was there before, or is what an earlier attempt at it came to. -/
  published : ∀ before a after, attempts = before ++ a :: after →
    ∀ d, Schedule.Needs units a.unit.name d → ∃ x, a.env.get? d = some x ∧
      (env.get? d = some x ∨
        ∃ b ∈ before, b.unit.name = d ∧ (b.outcome settings).result = .ok x)
  /-- Nothing is attempted that needs a module which failed. -/
  failed : ∀ b ∈ attempts, ∀ e, (b.outcome settings).result = .error e →
    ∀ a ∈ attempts, ¬ Schedule.Needs units a.unit.name b.unit.name
  /-- No attempt misses a module that its own module needs. -/
  present : ∀ a ∈ attempts, ∀ d,
    (a.outcome settings).result = .error (.internal (.missingModule d)) →
      ¬ Schedule.Needs units a.unit.name d

/-- In every build, whether modules are resolved in turn or side by side, and also in one that is
broken off, no module is attempted before all that it needs is published. -/
theorem inOrder_log (arrival : Arrival) (hrun : run = runSequential units settings env ∨
    runConcurrent arrival units settings env = some run) : InOrder units settings env run.log where
  once := nodup_log hrun
  scheduled a ha := by
    obtain ⟨s, hs, done, rest, past, q, hst⟩ := exists_starts_of_mem hrun ha
    exact hst.unit_mem hs
  new a ha := by
    obtain ⟨s, hs, done, rest, past, q, hst⟩ := exists_starts_of_mem hrun ha
    exact hst.get?_self hs
  base a ha := by
    obtain ⟨s, hs, done, rest, past, q, hst⟩ := exists_starts_of_mem hrun ha
    exact hst.base
  published _ _ _ h _ hd := exists_table_of_needs hrun h hd
  failed _ hb _ he _ ha := not_needs_of_error hrun ha hb he
  present a ha d hmissing hneeds := by
    obtain ⟨before, after, h⟩ := List.append_of_mem ha
    obtain ⟨x, hx, -⟩ := exists_table_of_needs hrun h hneeds
    simp [get?_eq_none_of_missingModule hmissing] at hx

/-- The dependents of `C`, which fails, are not attempted. -/
theorem inOrder_log_sampleProgram : ∃ run,
    runConcurrent ⟨List.reverse, List.reverse_perm⟩ sampleProgram {} {} = some run ∧
    run.log.map (·.unit.name) = [⟨"A"⟩, ⟨"B"⟩, ⟨"C"⟩] ∧ InOrder sampleProgram {} {} run.log := by
  obtain ⟨run, hrun, hnames⟩ : ∃ run,
      runConcurrent ⟨List.reverse, List.reverse_perm⟩ sampleProgram {} {} = some run ∧
        run.log.map (·.unit.name) = [⟨"A"⟩, ⟨"B"⟩, ⟨"C"⟩] := Option.map_eq_some_iff.1 (by cbv)
  exact ⟨run, hrun, hnames, inOrder_log _ (.inr hrun)⟩

end Build

end ModuleExports
