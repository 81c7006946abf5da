import Mathlib
import ModuleExports.Proofs.Build.Progress
import ModuleExports.Proofs.Build.Refusal
import ModuleExports.Proofs.Resolution.Failures

/-!
When a build is broken off. Main statement: when there is no schedule, or by the first module, in
the order of the layers and the names, whose resolution shows a defect, and by no other failure.
-/
namespace ModuleExports
open Std

namespace Build
variable {units us done : List ScheduledModule} {settings : Settings} {env E : Environment}
  {s : Schedule} {q : Report} {F : List ModuleName} {u : ScheduledModule} {x : Interface}
  {e : Failure}

/-- None of the modules that `u` depends on is among those that failed. -/
def Free (units : List ScheduledModule) (F : List ModuleName) (u : ScheduledModule) : Prop :=
  ∀ f ∈ F, ¬ Relation.TransGen (Schedule.Depends units) u.name f

/-- Modules in turn have led to an environment, and some of them have failed. A module that depends
on one of these is left out, and none has shown a defect. -/
inductive Built (units : List ScheduledModule) (settings : Settings) (env : Environment) :
    List ScheduledModule → Environment → List ModuleName → Prop where
  | start : Built units settings env [] env []
  | blocked {us : List ScheduledModule} {E : Environment} {F : List ModuleName}
      {u : ScheduledModule} : Built units settings env us E F → ¬ Free units F u →
      Built units settings env (us ++ [u]) E F
  | published {us : List ScheduledModule} {E : Environment} {F : List ModuleName}
      {u : ScheduledModule} {x : Interface} : Built units settings env us E F → Free units F u →
      (u.resolve E settings).result = .ok x →
      Built units settings env (us ++ [u]) ⟨E.modules.insert u.name x⟩ F
  | failed {us : List ScheduledModule} {E : Environment} {F : List ModuleName}
      {u : ScheduledModule} {e : Failure} : Built units settings env us E F → Free units F u →
      (u.resolve E settings).result = .error e → e.isDefect = false →
      Built units settings env (us ++ [u]) E (u.name :: F)

/-- Only the modules in turn are added to the environment. -/
theorem Built.get?_of_notMem (h : Built units settings env us E F) {k : ModuleName}
    (hk : k ∉ Schedule.names us) : E.get? k = env.get? k := by
  induction h with
  | start => rfl
  | blocked _ _ ih | failed _ _ _ _ ih => exact ih (by simp_all [Schedule.names])
  | @published us E F u x _ _ _ ih =>
    simp only [Schedule.names, List.map_append, List.map_cons, List.map_nil, List.mem_append,
      List.mem_singleton, not_or] at hk
    rw [← ih hk.1]
    simp [Environment.get?, ExtTreeMap.getElem?_insert, Ne.symm hk.2]

/-- The report has the environment and blocks what depends on the failures. -/
structure Reflects (units : List ScheduledModule) (q : Report) (E : Environment)
    (F : List ModuleName) : Prop where
  env : q.env = E
  blocked : ∀ k, k ∈ q.blocked ↔ ∃ f ∈ F, Relation.TransGen (Schedule.Depends units) k f

theorem Reflects.free_iff (h : Reflects units q E F) : Free units F u ↔ u.name ∉ q.blocked := by
  simp [Free, h.blocked]

section Step
variable (hs : Schedule.Made env units s) (hu : u ∈ units) (h : Reflects units q E F)
include hs hu h

omit hs hu in
theorem result_advance_blocked (hf : ¬ Free units F u) :
    (advance Report.env settings s q u.name).result = .ok q := by
  rw [advance_of_mem (by_contra fun hb => hf (h.free_iff.2 hb))]
  rfl

theorem result_advance_free (hf : Free units F u) :
    (advance Report.env settings s q u.name).result =
      q.enter s.graph u.name (u.resolve E settings) := by
  rw [advance_of_find (h.free_iff.1 hf) ((hs.find _ u).2 ⟨hu, rfl⟩), h.env]

theorem exists_advance_published (hf : Free units F u) (hnew : E.get? u.name = none)
    (hx : (u.resolve E settings).result = .ok x) :
    ∃ r, (advance Report.env settings s q u.name).result = .ok r ∧
      Reflects units r ⟨E.modules.insert u.name x⟩ F := by
  have hcommit : q.env.commit u.name x = .ok ⟨E.modules.insert u.name x⟩ := by
    simp [Environment.commit, Environment.contains_eq_isSome, h.env, hnew]
  rw [result_advance_free hs hu h hf, Report.enter, hx]
  dsimp only
  rw [hcommit]
  exact ⟨_, rfl, rfl, fun k => by simp [h.blocked]⟩

theorem exists_advance_failed (hf : Free units F u)
    (he : (u.resolve E settings).result = .error e) (hd : e.isDefect = false) :
    ∃ r, (advance Report.env settings s q u.name).result = .ok r ∧
      Reflects units r E (u.name :: F) := by
  rw [result_advance_free hs hu h hf, Report.enter, he]
  simp only [hd, Bool.false_eq_true, ↓reduceIte]
  refine ⟨_, rfl, by simp [h.env], fun k => ?_⟩
  have hself : s.graph.Reaches k u.name → k ≠ u.name := by
    rintro hk rfl
    exact hs.not_reaches_self hk
  simp only [Report.blocked_enterWarnings, ExtTreeSet.mem_union_iff, h.blocked,
    DependencyGraph.mem_allDependents, List.exists_mem_cons_iff, ← hs.reaches_iff]
  rw [and_iff_right_of_imp hself, or_comm]

theorem result_advance_defect (hf : Free units F u)
    (he : (u.resolve E settings).result = .error e) (hd : e.isDefect) :
    (advance Report.env settings s q u.name).result = .error e := by
  rw [result_advance_free hs hu h hf, Report.enter, he]
  simp [hd]

end Step

/-- Some of the scheduled modules, and none of them twice. -/
structure Listed (units us : List ScheduledModule) : Prop where
  mem : ∀ v ∈ us, v ∈ units
  nodup : (Schedule.names us).Nodup

theorem Listed.init (h : Listed units (us ++ [u])) : Listed units us := by
  refine ⟨fun v hv => h.mem v (List.mem_append_left _ hv), ?_⟩
  have hn := h.nodup
  rw [Schedule.names_concat] at hn
  exact hn.of_append_left

theorem Listed.last_mem (h : Listed units (us ++ [u])) : u ∈ units := h.mem u (by simp)

theorem foldlM_names_concat {f : Report → ModuleName → Except Failure Report} {r : Report} :
    (Schedule.names (us ++ [u])).foldlM f r =
      (Schedule.names us).foldlM f r >>= fun q => f q u.name := by
  rw [Schedule.names_concat, List.foldlM_append]
  simp

section Run
variable (hs : Schedule.Made env units s)
include hs

/-- A module that comes after those in turn has no table yet. -/
theorem Built.get?_next (h : Built units settings env us E F) (hl : Listed units (us ++ [u])) :
    E.get? u.name = none := by
  have hn := hl.nodup
  rw [Schedule.names_concat, List.nodup_append] at hn
  rw [h.get?_of_notMem fun hm => hn.2.2 _ hm _ List.mem_cons_self rfl]
  exact hs.fresh u hl.last_mem

/-- Where modules in turn have led, the build comes through them to a report. -/
theorem exists_report_of_built (h : Built units settings env us E F) (hl : Listed units us) :
    ∃ q, (Schedule.names us).foldlM (fun r m => (advance Report.env settings s r m).result)
      { env } = .ok q ∧ Reflects units q E F := by
  induction h with
  | start => exact ⟨{ env }, rfl, rfl, by simp⟩
  | blocked _ hf ih =>
    obtain ⟨q, hq, hr⟩ := ih hl.init
    rw [foldlM_names_concat]
    exact ⟨q, except_bind_eq_ok.2 ⟨q, hq, result_advance_blocked hr hf⟩, hr⟩
  | published hb hf hx ih =>
    obtain ⟨q, hq, hr⟩ := ih hl.init
    obtain ⟨r, hr, hr'⟩ :=
      exists_advance_published hs hl.last_mem hr hf (hb.get?_next hs hl) hx
    rw [foldlM_names_concat]
    exact ⟨r, except_bind_eq_ok.2 ⟨q, hq, hr⟩, hr'⟩
  | failed _ hf he hd ih =>
    obtain ⟨q, hq, hr⟩ := ih hl.init
    obtain ⟨r, hr, hr'⟩ := exists_advance_failed hs hl.last_mem hr hf he hd
    rw [foldlM_names_concat]
    exact ⟨r, except_bind_eq_ok.2 ⟨q, hq, hr⟩, hr'⟩

/-- The next module leads on from where those before it have led, or it shows a defect. -/
theorem advance_cases (hb : Built units settings env us E F) (hr : Reflects units q E F)
    (hl : Listed units (us ++ [u])) :
    (∃ r E' F', (advance Report.env settings s q u.name).result = .ok r ∧
      Built units settings env (us ++ [u]) E' F' ∧ Reflects units r E' F') ∨
    ∃ e, (advance Report.env settings s q u.name).result = .error e ∧ Free units F u ∧
      (u.resolve E settings).result = .error e ∧ e.isDefect := by
  have hu := hl.last_mem
  by_cases hf : Free units F u
  · cases hres : (u.resolve E settings).result with
    | ok x =>
      obtain ⟨r, hstep, hr'⟩ := exists_advance_published hs hu hr hf (hb.get?_next hs hl) hres
      exact .inl ⟨r, _, _, hstep, hb.published hf hres, hr'⟩
    | error e =>
      cases hd : e.isDefect with
      | false =>
        obtain ⟨r, hstep, hr'⟩ := exists_advance_failed hs hu hr hf hres hd
        exact .inl ⟨r, _, _, hstep, hb.failed hf hres hd, hr'⟩
      | true => exact .inr ⟨e, result_advance_defect hs hu hr hf hres hd, hf, rfl, hd⟩
  · exact .inl ⟨q, E, F, result_advance_blocked hr hf, hb.blocked hf, hr⟩

/-- Where the build comes through modules in turn to a report, these have led there. -/
theorem exists_built_of_report (hl : Listed units us)
    (h : (Schedule.names us).foldlM (fun r m => (advance Report.env settings s r m).result)
      { env } = .ok q) :
    ∃ E F, Built units settings env us E F ∧ Reflects units q E F := by
  induction us using List.reverseRecOn generalizing q with
  | nil =>
    obtain rfl := except_pure_eq_ok.1 h
    exact ⟨env, [], .start, rfl, by simp⟩
  | append_singleton us u ih =>
    rw [foldlM_names_concat] at h
    obtain ⟨p, hp, h⟩ := except_bind_eq_ok.1 h
    obtain ⟨E, F, hb, hr⟩ := ih hl.init hp
    rcases advance_cases hs hb hr hl with ⟨r, E', F', hstep, hb', hr'⟩ | ⟨e, hstep, -⟩
    · obtain rfl := Except.ok.inj (h.symm.trans hstep)
      exact ⟨E', F', hb', hr'⟩
    · rw [hstep] at h
      cases h

theorem listed_of_flatten (hd : ∀ v ∈ done, v ∈ units) (hu : u ∈ units) {rest : List ModuleName}
    (h : s.layers.flatten = Schedule.names done ++ u.name :: rest) :
    Listed units (done ++ [u]) := by
  refine ⟨fun v hv => ?_, ?_⟩
  · rcases List.mem_append.1 hv with hv | hv
    · exact hd v hv
    · exact List.mem_singleton.1 hv ▸ hu
  · have hn := hs.nodup_flatten
    rw [h, List.append_cons, ← Schedule.names_concat] at hn
    exact hn.of_append_left

end Run

/-- The modules that come before `u`, in the order of the layers and the names. -/
structure Preceding (units : List ScheduledModule) (u : ScheduledModule)
    (done : List ScheduledModule) : Prop where
  mem : ∀ v, v ∈ done ↔ v ∈ units ∧ Precedes (Schedule.Depends units) v.name u.name
  ordered : done.Pairwise fun v w => Precedes (Schedule.Depends units) v.name w.name

section Order
variable (hmake : Schedule.make env units = .ok s)
include hmake

theorem pairwise_flatten : s.layers.flatten.Pairwise (Precedes (Schedule.Depends units)) := by
  have hs := Schedule.made_of_make hmake
  have hedges : (fun a b => (a, b) ∈ s.graph.edges) = Schedule.Depends units := by
    funext a b
    exact propext (hs.edges a b)
  rw [← hedges]
  exact DependencyGraph.pairwise_precedes (Schedule.layers_of_make hmake).2

theorem preceding_of_flatten (hd : ∀ v ∈ done, v ∈ units) {rest : List ModuleName}
    (h : s.layers.flatten = Schedule.names done ++ u.name :: rest) : Preceding units u done := by
  have hs := Schedule.made_of_make hmake
  have hpair := h ▸ pairwise_flatten hmake
  refine ⟨fun v => ?_, List.pairwise_map.1 (List.pairwise_append.1 hpair).1⟩
  constructor
  · intro hv
    exact ⟨hd v hv, ((Precedes.mem_before_iff hpair).1 (List.mem_map_of_mem hv)).2⟩
  · intro ⟨hv, hvu⟩
    have hmem : v.name ∈ s.layers.flatten := hs.mem_flatten.2 (List.mem_map_of_mem hv)
    obtain ⟨w, hw, hwv⟩ :=
      Schedule.mem_names.1 ((Precedes.mem_before_iff hpair).2 ⟨h ▸ hmem, hvu⟩)
    have hfind := (hs.find v.name w).2 ⟨hd w hw, hwv⟩
    rw [(hs.find v.name v).2 ⟨hv, rfl⟩] at hfind
    exact Except.ok.inj hfind ▸ hw

theorem exists_flatten_of_preceding (hu : u ∈ units) (h : Preceding units u done) :
    ∃ rest, s.layers.flatten = Schedule.names done ++ u.name :: rest := by
  have hs := Schedule.made_of_make hmake
  obtain ⟨before, rest, hms⟩ :=
    List.append_of_mem (hs.mem_flatten.2 (List.mem_map_of_mem (f := (·.name)) hu))
  have hpair := hms ▸ pairwise_flatten hmake
  have hbefore : before = Schedule.names done := by
    refine (List.pairwise_append.1 hpair).1.eq_of_mem_iff (List.pairwise_map.2 h.ordered)
      fun k => ?_
    rw [Precedes.mem_before_iff hpair, ← hms, hs.mem_flatten, Schedule.mem_names,
      Schedule.mem_names]
    constructor
    · rintro ⟨⟨v, hv, rfl⟩, hk⟩
      exact ⟨v, (h.mem v).2 ⟨hv, hk⟩, rfl⟩
    · rintro ⟨v, hv, rfl⟩
      obtain ⟨hv, hk⟩ := (h.mem v).1 hv
      exact ⟨⟨v, hv, rfl⟩, hk⟩
  exact ⟨rest, hbefore ▸ hms⟩

end Order

/-- The build comes to `u`, which depends on nothing that has failed, and its resolution shows the
defect `e` in the environment that the modules before it have led to. -/
def BreaksOff (units : List ScheduledModule) (settings : Settings) (env : Environment)
    (u : ScheduledModule) (e : Failure) : Prop :=
  u ∈ units ∧ ∃ done E F, Preceding units u done ∧ Built units settings env done E F ∧
    Free units F u ∧ (u.resolve E settings).result = .error e ∧ e.isDefect

/-- With a schedule, a build fails exactly as a module breaks it off. -/
theorem sequential_eq_error_iff (hmake : Schedule.make env units = .ok s) :
    sequential units settings env = .error e ↔ ∃ u, BreaksOff units settings env u e := by
  have hs := Schedule.made_of_make hmake
  rw [sequential_of_make hmake, foldlM_eq_error]
  constructor
  · intro ⟨before, m, after, q, hms, hq, he⟩
    have hfound : ∀ k ∈ before ++ m :: after, ∃ u, s.find k = .ok u := fun k hk =>
      hs.exists_find (hms ▸ hk)
    obtain ⟨done, hdone⟩ := exists_mapM_eq_ok fun k hk => hfound k (List.mem_append_left _ hk)
    obtain ⟨u, hfind⟩ := hfound m (by simp)
    obtain ⟨hu, rfl⟩ := (hs.find m u).1 hfind
    have hmem : ∀ v ∈ done, v ∈ units := fun v hv => by
      obtain ⟨k, -, hk⟩ := (mem_of_mapM_eq_ok hdone).1 hv
      exact ((hs.find k v).1 hk).1
    obtain rfl := hs.names_of_mapM hdone
    have hl := listed_of_flatten hs hmem hu hms
    obtain ⟨E, F, hb, hr⟩ := exists_built_of_report hs hl.init hq
    rcases advance_cases hs hb hr hl with ⟨r, E', F', hstep, -⟩ | ⟨d, hstep, hf, hres, hd⟩
    · rw [hstep] at he
      cases he
    · obtain rfl := Except.error.inj (he.symm.trans hstep)
      exact ⟨u, hu, done, E, F, preceding_of_flatten hmake hmem hms, hb, hf, hres, hd⟩
  · intro ⟨u, hu, done, E, F, hprec, hb, hf, he, hd⟩
    obtain ⟨rest, hms⟩ := exists_flatten_of_preceding hmake hu hprec
    have hl := listed_of_flatten hs (fun v hv => ((hprec.mem v).1 hv).1) hu hms
    obtain ⟨q, hq, hr⟩ := exists_report_of_built hs hb hl.init
    exact ⟨_, _, rest, q, hms, hq, result_advance_defect hs hu hr hf he hd⟩

/-- With a schedule, a build succeeds exactly when no module breaks it off. -/
theorem exists_sequential_iff (hmake : Schedule.make env units = .ok s) :
    (∃ r, sequential units settings env = .ok r) ↔ ∀ u e, ¬ BreaksOff units settings env u e := by
  constructor
  · intro ⟨r, hr⟩ u e hu
    rw [(sequential_eq_error_iff hmake).2 ⟨u, hu⟩] at hr
    cases hr
  · intro hnone
    cases hr : sequential units settings env with
    | ok r => exact ⟨r, rfl⟩
    | error e =>
      obtain ⟨u, hu⟩ := (sequential_eq_error_iff hmake).1 hr
      exact absurd hu (hnone u e)

/-- A resolution fails as none of what a build itself is refused or could be broken off for. -/
theorem ne_of_resolve (h : (u.resolve E settings).result = .error e) (m : ModuleName) :
    e ≠ .internal (.committedTwice m) ∧ e ≠ .internal (.unplanned m) := by
  cases ModuleSource.failsOnly_resolve e h with
  | own h =>
    constructor
    · rintro rfl
      cases h
    · rintro rfl
      cases h
  | _ => exact ⟨nofun, nofun⟩

/-- All the failures that a build in turn can come to. -/
theorem sequential_error_cases (h : sequential units settings env = .error e) :
    (∃ m, e = .internal (.scheduledTwice m)) ∨ (∃ d m, e = .internal (.unknownDependency d m)) ∨
      (∃ ms, e = .circularDependency ms) ∨ e.isDefect ∧ ∃ u ∈ units, ∃ E,
        (u.resolve E settings).result = .error e := by
  cases hs : Schedule.make env units with
  | error d =>
    obtain rfl := Except.error.inj (h.symm.trans (sequential_of_error hs))
    exact (Schedule.failsOnly_make e hs).imp_right (Or.imp_right .inl)
  | ok s =>
    obtain ⟨u, hu, -, E, -, -, -, -, he, hd⟩ := (sequential_eq_error_iff hs).1 h
    exact .inr (.inr (.inr ⟨hd, u, hu, E, he⟩))

/-- A build fails as neither of what would only happen to a module that is committed again or is
not in the schedule. -/
theorem ne_of_sequential (h : sequential units settings env = .error e) (m : ModuleName) :
    e ≠ .internal (.committedTwice m) ∧ e ≠ .internal (.unplanned m) := by
  rcases sequential_error_cases h with ⟨k, rfl⟩ | ⟨d, k, rfl⟩ | ⟨ms, rfl⟩ | ⟨-, u, -, E, hu⟩
  · exact ⟨nofun, nofun⟩
  · exact ⟨nofun, nofun⟩
  · exact ⟨nofun, nofun⟩
  · exact ne_of_resolve hu m

/-- What a build that fails comes to, with the reasons in the order in which they count. -/
structure Aborts (units : List ScheduledModule) (settings : Settings) (env : Environment)
    (build : Except Failure Report) : Prop where
  clash : Schedule.Clash env units → ∃ m, build = .error (.internal (.scheduledTwice m))
  missing : ¬ Schedule.Clash env units → Schedule.Missing env units →
    ∃ d m, build = .error (.internal (.unknownDependency d m))
  cyclic : ¬ Schedule.Clash env units → ¬ Schedule.Missing env units → Schedule.Cyclic units →
    ∃ ms, build = .error (.circularDependency ms)
  /-- Else the build fails by the first module with a defect. -/
  defect : ¬ Schedule.Clash env units → ¬ Schedule.Missing env units → ¬ Schedule.Cyclic units →
    ∀ e, build = .error e ↔ ∃ u, BreaksOff units settings env u e
  succeeds : (∃ r, build = .ok r) ↔ ¬ Schedule.Clash env units ∧ ¬ Schedule.Missing env units ∧
    ¬ Schedule.Cyclic units ∧ ∀ u e, ¬ BreaksOff units settings env u e
  /-- No fault of a module breaks off a build. -/
  kind : ∀ e, build = .error e → e.isDefect ∨ ∃ ms, e = .circularDependency ms
  /-- Once there is a schedule, its modules are found in it and each is committed once. -/
  never : ∀ m, build ≠ .error (.internal (.committedTwice m)) ∧
    build ≠ .error (.internal (.unplanned m))

/-- In every program, a build in turn fails in these cases and in no others. -/
theorem aborts_sequential (units : List ScheduledModule) (settings : Settings)
    (env : Environment) : Aborts units settings env (sequential units settings env) where
  clash hc := by
    obtain ⟨m, hm⟩ := Schedule.make_of_clash hc
    exact ⟨m, sequential_of_error hm⟩
  missing hc hm := by
    obtain ⟨d, m, hd⟩ := Schedule.make_of_missing hc hm
    exact ⟨d, m, sequential_of_error hd⟩
  cyclic hc hm hcy := ⟨_, sequential_of_error (Schedule.make_of_cyclic hc hm hcy)⟩
  defect hc hm hcy e := by
    obtain ⟨s, hs⟩ := Schedule.exists_make_iff.2 ⟨hc, hm, hcy⟩
    exact sequential_eq_error_iff hs
  succeeds := by
    cases hs : Schedule.make env units with
    | ok s =>
      obtain ⟨hc, hm, hcy⟩ := Schedule.exists_make_iff.1 ⟨s, hs⟩
      rw [exists_sequential_iff hs]
      exact ⟨fun hnone => ⟨hc, hm, hcy, hnone⟩, fun ⟨_, _, _, hnone⟩ => hnone⟩
    | error e =>
      constructor
      · intro ⟨r, hr⟩
        rw [sequential_of_error hs] at hr
        cases hr
      · intro ⟨hc, hm, hcy, _⟩
        obtain ⟨s, hs'⟩ := Schedule.exists_make_iff.2 ⟨hc, hm, hcy⟩
        rw [hs] at hs'
        cases hs'
  kind e he := by
    rcases sequential_error_cases he with ⟨m, rfl⟩ | ⟨d, m, rfl⟩ | ⟨ms, rfl⟩ | ⟨hd, -⟩
    · exact .inl rfl
    · exact .inl rfl
    · exact .inr ⟨ms, rfl⟩
    · exact .inl hd
  never m := ⟨fun h => (ne_of_sequential h m).1 rfl, fun h => (ne_of_sequential h m).2 rfl⟩

/-- A name that is imported from a module which is not there breaks off the build. -/
example : sequential [{
    name := ⟨"B"⟩
    imports := sampleImports ⟨"A"⟩
    exportList := some [⟨.null, .module ⟨"A"⟩⟩] }] {} {} =
      .error (.internal (.missingModule ⟨"A"⟩)) := by
  cbv

end Build

end ModuleExports
