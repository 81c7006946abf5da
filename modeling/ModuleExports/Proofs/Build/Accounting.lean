import Mathlib
import ModuleExports.Proofs.Build.Progress

/-!
The accounts of a build. Main statement: a build that succeeds has committed, failed or blocked each
scheduled module, exactly one of these, and has blocked exactly what depends on a failure.
-/
namespace ModuleExports
open Std

namespace Build

namespace Progress
variable {settings : Settings} {s : Schedule} {r r' : Report} {ms : List ModuleName}
  {as : List Attempt} {a : Attempt} {m k : ModuleName}

theorem within (h : Progress settings s r ms as r') : r.env.Within r'.env := by
  induction h with
  | done => exact .refl _
  | skip _ _ ih => exact ih
  | step _ _ _ he _ ih => exact (Report.within_enter he).trans ih

theorem within_of_mem (h : Progress settings s r ms as r') (ha : a ∈ as) :
    a.env.Within r'.env := by
  induction h with
  | done => cases ha
  | skip _ _ ih => exact ih ha
  | step _ _ hw he hp ih =>
    rcases List.mem_cons.1 ha with rfl | ha
    · exact hw.trans ((Report.within_enter he).trans hp.within)
    · exact ih ha

section Named
variable (hf : ∀ m u, s.find m = .ok u → u.name = m)
include hf

theorem names_sublist (h : Progress settings s r ms as r') :
    (as.map (·.unit.name)).Sublist ms := by
  induction h with
  | done => exact .slnil
  | skip _ _ ih => exact ih.cons _
  | step _ hu _ _ _ ih => exact hf _ _ hu ▸ ih.cons_cons _

theorem find_of_mem (h : Progress settings s r ms as r') (ha : a ∈ as) :
    s.find a.unit.name = .ok a.unit := by
  induction h with
  | done => cases ha
  | skip _ _ ih => exact ih ha
  | step _ hu _ _ _ ih =>
    rcases List.mem_cons.1 ha with rfl | ha
    · rwa [hf _ _ hu]
    · exact ih ha

/-- Attempts settle the standing of their modules, each by its own outcome, and of no others. -/
theorem standing (hn : ms.Nodup) (hp : ∀ m ∈ ms, r.Pending m)
    (h : Progress settings s r ms as r') :
    (∀ k, k ∉ as.map (·.unit.name) → r'.standing k = r.standing k) ∧
      ∀ a ∈ as, r'.standing a.unit.name = (a.outcome settings).standing := by
  induction h with
  | done => exact ⟨fun _ _ => rfl, fun a ha => by cases ha⟩
  | skip _ _ ih => exact ih hn.of_cons fun m hm => hp m (List.mem_cons_of_mem _ hm)
  | @step r q r' m ms a as _ hu _ he hrest ih =>
    obtain ⟨hm, hn⟩ := List.nodup_cons.1 hn
    have hstep := Report.standing_enter he (hp m List.mem_cons_self)
    have hother {k : ModuleName} (hk : m ≠ k) : q.standing k = r.standing k := by
      rw [hstep, if_neg hk]
    obtain ⟨hframe, hself⟩ := ih hn fun k hk =>
      (hother (ne_of_mem_of_not_mem hk hm).symm).trans (hp k (List.mem_cons_of_mem m hk))
    obtain rfl := hf m a.unit hu
    constructor
    · intro k hk
      rw [List.map_cons, List.mem_cons, not_or] at hk
      rw [hframe k hk.2, hother (Ne.symm hk.1)]
    · intro b hb
      rcases List.mem_cons.1 hb with rfl | hb
      · -- Later attempts are at other modules.
        have hlater : b.unit.name ∉ as.map (·.unit.name) := fun hk =>
          hm ((hrest.names_sublist hf).subset hk)
        rw [hframe _ hlater, hstep, if_pos rfl]
      · exact hself b hb

/-- What is blocked in the end are the dependents of the modules that failed. -/
theorem mem_blocked (h : Progress settings s r ms as r') : k ∈ r'.blocked ↔ k ∈ r.blocked ∨
      ∃ a ∈ as, (a.outcome settings).standing.failure.isSome ∧ k ≠ a.unit.name ∧
        s.graph.Reaches k a.unit.name := by
  induction h with
  | done => simp
  | skip _ _ ih => exact ih
  | step _ hu _ he _ ih =>
    rw [ih, Report.mem_blocked_enter he, List.exists_mem_cons_iff, hf _ _ hu, or_assoc]

/-- Each module is attempted unless it is blocked. -/
theorem attempted_or_blocked (h : Progress settings s r ms as r') (hm : m ∈ ms) :
    m ∈ as.map (·.unit.name) ∨ m ∈ r'.blocked := by
  induction h with
  | done => cases hm
  | skip hb hp ih =>
    rcases List.mem_cons.1 hm with rfl | hm
    · exact .inr ((hp.mem_blocked hf).2 (.inl hb))
    · exact ih hm
  | step _ hu _ _ _ ih =>
    rw [List.map_cons, List.mem_cons, hf _ _ hu]
    rcases List.mem_cons.1 hm with rfl | hm
    · exact .inl (.inl rfl)
    · exact (ih hm).imp .inr id

/-- No module that was attempted is blocked later, as no module depends on a later one. -/
theorem not_blocked_of_attempted (ho : ms.Pairwise fun a b => ¬ s.graph.Reaches a b)
    (h : Progress settings s r ms as r') (ha : a ∈ as) : a.unit.name ∉ r'.blocked := by
  induction h with
  | done => cases ha
  | skip _ _ ih => exact ih ho.of_cons ha
  | @step r q r' m ms b bs hm hu _ he hp ih =>
    rcases List.mem_cons.1 ha with rfl | ha
    · obtain rfl := hf m a.unit hu
      rw [hp.mem_blocked hf, Report.mem_blocked_enter he]
      rintro ((hb | ⟨-, hne, -⟩) | ⟨b, hb, -, -, hr⟩)
      · exact hm hb
      · exact hne rfl
      · exact (List.pairwise_cons.1 ho).1 _
          ((hp.names_sublist hf).subset (List.mem_map_of_mem hb)) hr
    · exact ih ho.of_cons ha

end Named

end Progress

section Accounts
variable {units : List ScheduledModule} {settings : Settings} {env : Environment} {s : Schedule}
  {r : Report} {as : List Attempt} {a : Attempt} {m : ModuleName}

/-- The accounts of a build of `units` on top of `env`, by the attempts that it logged. -/
structure Accounts (units : List ScheduledModule) (settings : Settings) (env : Environment)
    (attempts : List Attempt) (r : Report) : Prop where
  /-- Each scheduled module is attempted once, unless it is blocked. -/
  once : (attempts.map (·.unit.name)).Nodup
  attempted : ∀ u, (∃ a ∈ attempts, a.unit = u) ↔ u ∈ units ∧ u.name ∉ r.blocked
  /-- An attempt sees only what the build yields. -/
  within : ∀ a ∈ attempts, a.env.Within r.env
  /-- The scheduled modules are those committed, those that failed and those blocked. -/
  scheduled : ∀ m, m ∈ r.failures ∨ m ∈ r.blocked → m ∈ Schedule.names units
  covered : ∀ m ∈ Schedule.names units, r.env.contains m ∨ m ∈ r.failures ∨ m ∈ r.blocked
  disjoint : ∀ m, ¬ (r.env.contains m ∧ m ∈ r.failures) ∧ ¬ (r.env.contains m ∧ m ∈ r.blocked) ∧
    ¬ (m ∈ r.failures ∧ m ∈ r.blocked)
  blocked : ∀ m, m ∈ r.blocked ↔ ∃ f ∈ r.failures, Relation.TransGen (Schedule.Depends units) m f
  /-- A table was there before or is what the attempt at its module came to. -/
  tables : ∀ m x, r.env.get? m = some x ↔ env.get? m = some x ∨
    ∃ a ∈ attempts, a.unit.name = m ∧ (a.outcome settings).result = .ok x
  failures : ∀ m e, r.failures[m]? = some e ↔
    ∃ a ∈ attempts, a.unit.name = m ∧ (a.outcome settings).result = .error e
  warnings : ∀ m ws, r.warnings[m]? = some ws ↔ ws ≠ [] ∧
    ∃ a ∈ attempts, a.unit.name = m ∧ (a.outcome settings).log = ws
  succeeded : r.succeeded ↔ ∀ u ∈ units, r.env.contains u.name

/-- When a build begins, nothing has become of the scheduled modules. -/
theorem pending_of_made (hs : Schedule.Made env units s) (hm : m ∈ s.layers.flatten) :
    ({ env } : Report).Pending m := by
  obtain ⟨u, hu, rfl⟩ := Schedule.mem_names.1 (hs.mem_flatten.1 hm)
  simp [Report.Pending, Report.standing, hs.fresh u hu]

section Facts
variable (hs : Schedule.Made env units s) (h : Progress settings s { env } s.layers.flatten as r)
include hs h

theorem attempted_iff :
    m ∈ as.map (·.unit.name) ↔ m ∈ Schedule.names units ∧ m ∉ r.blocked := by
  constructor
  · intro hm
    refine ⟨hs.mem_flatten.1 ((h.names_sublist hs.name_of_find).subset hm), ?_⟩
    obtain ⟨a, ha, rfl⟩ := List.mem_map.1 hm
    exact h.not_blocked_of_attempted hs.name_of_find hs.layered.pairwise_flatten ha
  · rintro ⟨hm, hb⟩
    exact (h.attempted_or_blocked hs.name_of_find (hs.mem_flatten.2 hm)).resolve_right hb

theorem standing_of_mem (ha : a ∈ as) :
    r.standing a.unit.name = (a.outcome settings).standing :=
  (h.standing hs.name_of_find hs.nodup_flatten fun _ => pending_of_made hs).2 a ha

theorem standing_of_notMem (hm : m ∉ as.map (·.unit.name)) :
    r.standing m = ⟨env.get? m, none, none⟩ := by
  rw [(h.standing hs.name_of_find hs.nodup_flatten fun _ => pending_of_made hs).1 m hm]
  simp [Report.standing]

/-- A module stands in the end as the attempt at it came out, or as it stood before the build. -/
theorem standing_iff (P : Standing → Prop) :
    P (r.standing m) ↔ (m ∉ as.map (·.unit.name) ∧ P ⟨env.get? m, none, none⟩) ∨
      ∃ a ∈ as, a.unit.name = m ∧ P (a.outcome settings).standing := by
  by_cases hm : m ∈ as.map (·.unit.name)
  · have hP : P (r.standing m) ↔ ∃ a ∈ as, a.unit.name = m ∧ P (a.outcome settings).standing := by
      constructor
      · intro hP
        obtain ⟨a, ha, rfl⟩ := List.mem_map.1 hm
        exact ⟨a, ha, rfl, standing_of_mem hs h ha ▸ hP⟩
      · rintro ⟨a, ha, rfl, hP⟩
        rwa [standing_of_mem hs h ha]
    simp [hP, hm]
  · have hno : ¬ ∃ a ∈ as, a.unit.name = m ∧ P (a.outcome settings).standing := by
      rintro ⟨a, ha, rfl, -⟩
      exact hm (List.mem_map_of_mem ha)
    rw [or_iff_left hno, standing_of_notMem hs h hm]
    exact (and_iff_right hm).symm

theorem failures_iff {e : Failure} : r.failures[m]? = some e ↔
    ∃ a ∈ as, a.unit.name = m ∧ (a.outcome settings).result = .error e := by
  have hst := standing_iff hs h (m := m) fun t => t.failure = some e
  simpa [Report.standing, Outcome.failure_standing] using hst

theorem blocked_iff :
    m ∈ r.blocked ↔ ∃ f ∈ r.failures, Relation.TransGen (Schedule.Depends units) m f := by
  rw [h.mem_blocked hs.name_of_find]
  simp only [← hs.reaches_iff, ExtTreeSet.not_mem_empty, false_or]
  constructor
  · rintro ⟨a, ha, hfail, -, hr⟩
    obtain ⟨e, he⟩ := Option.isSome_iff_exists.1 hfail
    refine ⟨a.unit.name, ?_, hr⟩
    have hf := (failures_iff hs h).2 ⟨a, ha, rfl, Outcome.failure_standing.1 he⟩
    exact ExtTreeMap.mem_iff_isSome_getElem?.2 (hf ▸ rfl)
  · rintro ⟨f, hff, hr⟩
    rw [ExtTreeMap.mem_iff_isSome_getElem?] at hff
    obtain ⟨e, he⟩ := Option.isSome_iff_exists.1 hff
    obtain ⟨a, ha, rfl, hfail⟩ := (failures_iff hs h).1 he
    refine ⟨a, ha, by simp [Outcome.failure_standing.2 hfail], ?_, hr⟩
    rintro rfl
    exact hs.not_reaches_self hr

theorem tables_iff {x : Interface} : r.env.get? m = some x ↔ env.get? m = some x ∨
    ∃ a ∈ as, a.unit.name = m ∧ (a.outcome settings).result = .ok x := by
  have hst := standing_iff hs h (m := m) fun t => t.table = some x
  simp only [Report.standing, Outcome.table_standing] at hst
  rw [hst]
  refine or_congr_left (and_iff_right_of_imp fun hx hm => ?_)
  -- What was there before has a name that is not scheduled.
  obtain ⟨u, hu, rfl⟩ := Schedule.mem_names.1 ((attempted_iff hs h).1 hm).1
  simp [hs.fresh u hu] at hx

theorem warnings_iff {ws : List Warning} : r.warnings[m]? = some ws ↔ ws ≠ [] ∧
    ∃ a ∈ as, a.unit.name = m ∧ (a.outcome settings).log = ws := by
  have hst := standing_iff hs h (m := m) fun t => t.warnings = some ws
  simp only [Report.standing, Outcome.warnings_standing, reduceCtorEq, and_false, false_or] at hst
  rw [hst]
  constructor
  · rintro ⟨a, ha, hm, hne, hws⟩
    exact ⟨hne, a, ha, hm, hws⟩
  · rintro ⟨hne, a, ha, hm, hws⟩
    exact ⟨a, ha, hm, hne, hws⟩

theorem unit_mem_of_mem (ha : a ∈ as) : a.unit ∈ units :=
  ((hs.find _ _).1 (h.find_of_mem hs.name_of_find ha)).1

theorem unit_eq_of_name (ha : a ∈ as) {u : ScheduledModule} (hu : u ∈ units)
    (hname : a.unit.name = u.name) : a.unit = u :=
  List.inj_on_of_nodup_map hs.nodup (unit_mem_of_mem hs h ha) hu hname

/-- The units that were attempted are those that are not blocked. -/
theorem exists_attempt_iff {u : ScheduledModule} :
    (∃ a ∈ as, a.unit = u) ↔ u ∈ units ∧ u.name ∉ r.blocked := by
  constructor
  · rintro ⟨a, ha, rfl⟩
    exact ⟨unit_mem_of_mem hs h ha, ((attempted_iff hs h).1 (List.mem_map_of_mem ha)).2⟩
  · rintro ⟨hu, hb⟩
    obtain ⟨a, ha, hau⟩ := List.mem_map.1
      ((attempted_iff hs h).2 ⟨Schedule.mem_names.2 ⟨u, hu, rfl⟩, hb⟩)
    exact ⟨a, ha, unit_eq_of_name hs h ha hu hau⟩

/-- An attempt is settled by a table or by a failure, never by both. -/
theorem committed_or_failed (hm : m ∈ as.map (·.unit.name)) :
    r.env.contains m ∧ m ∉ r.failures ∨ ¬ r.env.contains m ∧ m ∈ r.failures := by
  obtain ⟨a, ha, rfl⟩ := List.mem_map.1 hm
  have hst := standing_of_mem hs h ha
  have htable := congrArg Standing.table hst
  have hfailure := congrArg Standing.failure hst
  rw [Environment.contains_eq_isSome, ExtTreeMap.mem_iff_isSome_getElem?]
  simp only [Report.standing] at htable hfailure
  rw [htable, hfailure]
  cases hres : (a.outcome settings).result with
  | ok x => simp [Outcome.standing, hres, Except.toOption]
  | error e => simp [Outcome.standing, hres, Except.toOption]

theorem attempted_of_mem_failures (hm : m ∈ r.failures) : m ∈ as.map (·.unit.name) := by
  obtain ⟨e, he⟩ := Option.isSome_iff_exists.1 (ExtTreeMap.mem_iff_isSome_getElem?.1 hm)
  obtain ⟨a, ha, rfl, -⟩ := (failures_iff hs h).1 he
  exact List.mem_map_of_mem ha

theorem scheduled_of_mem_blocked (hm : m ∈ r.blocked) : m ∈ Schedule.names units := by
  obtain ⟨f, -, hr⟩ := (blocked_iff hs h).1 hm
  exact (hs.modules m).1 (hs.reaches_iff.2 hr).mem_left

/-- A blocked module has no table, as it is not attempted and had none before. -/
theorem not_contains_of_mem_blocked (hm : m ∈ r.blocked) : ¬ r.env.contains m := by
  rw [Environment.contains_eq_isSome, Option.isSome_iff_exists]
  rintro ⟨x, hx⟩
  rcases (tables_iff hs h).1 hx with hx | ⟨a, ha, rfl, -⟩
  · obtain ⟨u, hu, rfl⟩ := Schedule.mem_names.1 (scheduled_of_mem_blocked hs h hm)
    simp [hs.fresh u hu] at hx
  · exact ((attempted_iff hs h).1 (List.mem_map_of_mem ha)).2 hm

theorem succeeded_iff : r.succeeded ↔ ∀ u ∈ units, r.env.contains u.name := by
  rw [Report.succeeded_iff_forall_not_mem]
  constructor
  · rintro ⟨hf, hb⟩ u hu
    have hm := (attempted_iff hs h).2 ⟨Schedule.mem_names.2 ⟨u, hu, rfl⟩, hb u.name⟩
    exact ((committed_or_failed hs h hm).resolve_right fun hc => hf _ hc.2).1
  · intro hc
    have hcontains {m : ModuleName} (hm : m ∈ Schedule.names units) : r.env.contains m := by
      obtain ⟨u, hu, rfl⟩ := Schedule.mem_names.1 hm
      exact hc u hu
    constructor
    · intro m hf
      have hm := attempted_of_mem_failures hs h hf
      refine (committed_or_failed hs h hm).elim (fun ht => ht.2 hf) fun ht => ht.1 ?_
      exact hcontains ((attempted_iff hs h).1 hm).1
    · intro m hb
      exact not_contains_of_mem_blocked hs h hb (hcontains (scheduled_of_mem_blocked hs h hb))

/-- What is known of a build once it has gone through its schedule. -/
theorem accounts : Accounts units settings env as r where
  once := (h.names_sublist hs.name_of_find).nodup hs.nodup_flatten
  attempted _ := exists_attempt_iff hs h
  within _ ha := h.within_of_mem ha
  scheduled m hm := by
    rcases hm with hm | hm
    · exact ((attempted_iff hs h).1 (attempted_of_mem_failures hs h hm)).1
    · exact scheduled_of_mem_blocked hs h hm
  covered m hm := by
    by_cases hb : m ∈ r.blocked
    · exact .inr (.inr hb)
    · rcases committed_or_failed hs h ((attempted_iff hs h).2 ⟨hm, hb⟩) with ⟨hc, -⟩ | ⟨-, hf⟩
      · exact .inl hc
      · exact .inr (.inl hf)
  disjoint m := by
    refine ⟨?_, fun ⟨hc, hb⟩ => not_contains_of_mem_blocked hs h hb hc, ?_⟩
    · rintro ⟨hc, hf⟩
      rcases committed_or_failed hs h (attempted_of_mem_failures hs h hf) with ⟨-, hn⟩ | ⟨hn, -⟩
      · exact hn hf
      · exact hn hc
    · rintro ⟨hf, hb⟩
      exact ((attempted_iff hs h).1 (attempted_of_mem_failures hs h hf)).2 hb
  blocked _ := blocked_iff hs h
  tables _ _ := tables_iff hs h
  failures _ _ := failures_iff hs h
  warnings _ _ := warnings_iff hs h
  succeeded := succeeded_iff hs h

end Facts

/-- A build that succeeds, modules in turn or side by side, accounts for every module. -/
theorem accounts_of_build (arrival : Arrival) {run : Run Report}
    (hrun : run = runSequential units settings env ∨
      runConcurrent arrival units settings env = some run)
    (h : run.result = .ok r) : Accounts units settings env run.log r := by
  obtain ⟨s, hs, hp⟩ := exists_progress hrun h
  exact accounts hs hp

theorem accounts_of_build_sampleProgram : ∃ r : Report,
    (runSequential sampleProgram {} {}).result = .ok r ∧
    (r.env.names, r.failures.keys, r.blocked.toList) = ([⟨"A"⟩, ⟨"B"⟩], [⟨"C"⟩], [⟨"D"⟩]) ∧
    Accounts sampleProgram {} {} (runSequential sampleProgram {} {}).log r := by
  obtain ⟨r, hr, hparts⟩ : ∃ r : Report, (runSequential sampleProgram {} {}).result = .ok r ∧
      (r.env.names, r.failures.keys, r.blocked.toList) = ([⟨"A"⟩, ⟨"B"⟩], [⟨"C"⟩], [⟨"D"⟩]) :=
    except_map_eq_ok.1 (by cbv)
  exact ⟨r, hr, hparts, accounts_of_build .asStarted (.inl rfl) hr⟩

end Accounts

end Build

end ModuleExports
