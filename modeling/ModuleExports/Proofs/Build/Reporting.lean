import ModuleExports.Proofs.Build.Progress
import ModuleExports.Proofs.Resolution.Reporting

/-!
What the settings do to a build. Main statement: whether it fails and how, what it publishes, what
fails in it and what is blocked are the same under all settings, which only choose among the
warnings that it reports.
-/
namespace ModuleExports
open Std

namespace Report
variable {r r' : Report} {g : DependencyGraph} {m k : ModuleName} {o : Outcome Interface}
  {c : Settings}

theorem ext (henv : r.env = r'.env) (hw : r.warnings = r'.warnings)
    (hf : r.failures = r'.failures) (hb : r.blocked = r'.blocked) : r = r' := by
  cases r
  cases r'
  simp_all

/-- The report with those of its warnings that the settings report. A module that is left without
warnings has no entry. -/
def keeping (c : Settings) (r : Report) : Report :=
  { r with warnings := r.warnings.filterMap fun _ ws =>
      let left := ws.filter c.reports
      if left.isEmpty then none else some left }

@[simp] theorem env_keeping : (r.keeping c).env = r.env := rfl

@[simp] theorem failures_keeping : (r.keeping c).failures = r.failures := rfl

@[simp] theorem blocked_keeping : (r.keeping c).blocked = r.blocked := rfl

theorem warnings_keeping : (r.keeping c).warnings[k]? =
    (r.warnings[k]?.map (List.filter c.reports)).filter (!·.isEmpty) := by
  cases hk : r.warnings[k]? with
  | none => simp [keeping, hk]
  | some ws =>
    simp only [keeping, ExtTreeMap.getElem?_filterMap', hk, Option.bind_some, Option.map_some,
      Option.filter_some]
    cases (ws.filter c.reports).isEmpty <;> rfl

theorem keeping_begin (c : Settings) (env : Environment) :
    ({ env } : Report).keeping c = { env } := by
  refine ext rfl (ExtTreeMap.ext_getElem? fun {k} => ?_) rfl rfl
  rw [warnings_keeping]
  simp

theorem warnings_enter_of_ne (h : r.enter g m o = .ok r') (hk : m ≠ k) :
    r'.warnings[k]? = r.warnings[k]? := by
  obtain ⟨x, env, -, -, rfl⟩ | ⟨e, -, -, rfl⟩ := enter_eq_ok h
  · simp [warnings_enterWarnings, hk]
  · simp [warnings_enterWarnings, hk]

/-- Warnings may be left out before or after they are entered for a module that had none. -/
theorem enterWarnings_keeping (h : r.warnings[m]? = none) (ws : List Warning) :
    (r.keeping c).enterWarnings m (ws.filter c.reports) = (r.enterWarnings m ws).keeping c := by
  refine ext (by simp) (ExtTreeMap.ext_getElem? fun {k} => ?_) (by simp) (by simp)
  rw [warnings_enterWarnings, warnings_keeping, warnings_keeping, warnings_enterWarnings]
  by_cases hk : m = k
  · subst hk
    by_cases hws : ws = []
    · simp [h, hws]
    · by_cases hleft : ws.filter c.reports = []
      · simp [h, hws, hleft, Option.filter_some]
      · simp [hws, hleft, Option.filter_some]
  · simp [hk]

/-- Of warnings that are all reported, as many are left out as at first. -/
theorem keeping_keeping {d : Settings} (hd : d.ReportsAll) (c : Settings) (r : Report) :
    (r.keeping d).keeping c = r.keeping c := by
  refine ext rfl (ExtTreeMap.ext_getElem? fun {k} => ?_) rfl rfl
  rw [warnings_keeping, warnings_keeping, warnings_keeping]
  cases r.warnings[k]? with
  | none => rfl
  | some ws =>
    have hall : ws.filter d.reports = ws := List.filter_eq_self.2 fun w _ => hd.reports w
    by_cases hws : ws = []
    · simp [hws, Option.filter_some]
    · simp [hall, hws, Option.filter_some]

/-- Leaving out warnings commutes with entering what a module came to. -/
theorem enter_keeping (h : r.warnings[m]? = none) :
    (r.keeping c).enter g m (o.keeping c.reports) = keeping c <$> r.enter g m o := by
  unfold enter
  simp only [Logged.result_keeping, Logged.log_keeping, enterWarnings_keeping h]
  cases o.result with
  | ok x =>
    simp only [env_keeping]
    cases r.env.commit m x <;> rfl
  | error e =>
    dsimp only
    cases e.isDefect <;> rfl

end Report

namespace Build
variable {settings c d : Settings} {s : Schedule} {r q : Report} {ms : List ModuleName}
  {m k : ModuleName} {pick : Report → Environment} {units : List ScheduledModule}
  {env : Environment}

theorem warnings_advance_of_ne (h : (advance pick settings s r m).result = .ok q) (hk : m ≠ k) :
    q.warnings[k]? = r.warnings[k]? := by
  by_cases hb : m ∈ r.blocked
  · rw [advance_of_mem hb] at h
    rw [except_pure_eq_ok.1 h]
  · rw [advance_of_notMem hb] at h
    obtain ⟨u, -, he⟩ := Logged.result_bind_eq_ok.1 h
    exact Report.warnings_enter_of_ne he hk

/-- Nothing is reported yet on modules that are ahead, none of which is there twice. -/
def Silent (r : Report) (ms : List ModuleName) : Prop :=
  ms.Nodup ∧ ∀ m ∈ ms, r.warnings[m]? = none

theorem Silent.advance (h : Silent r (m :: ms))
    (hq : (advance pick settings s r m).result = .ok q) : Silent q ms := by
  obtain ⟨hm, hn⟩ := List.nodup_cons.1 h.1
  refine ⟨hn, fun k hk => ?_⟩
  rw [warnings_advance_of_ne hq (ne_of_mem_of_not_mem hk hm).symm]
  exact h.2 k (List.mem_cons_of_mem m hk)

theorem Silent.left {ns : List ModuleName} (h : Silent r (ms ++ ns)) : Silent r ms :=
  ⟨(List.nodup_append.1 h.1).1, fun m hm => h.2 m (List.mem_append_left ns hm)⟩

theorem Silent.foldlM_advance {ns : List ModuleName} (h : Silent r (ms ++ ns))
    (hq : (ms.foldlM (Build.advance pick settings s) r).result = .ok q) : Silent q ns := by
  induction ms generalizing r with
  | nil =>
    obtain rfl := except_pure_eq_ok.1 hq
    exact h
  | cons m ms ih =>
    obtain ⟨p, hp, hq⟩ := Logged.result_bind_eq_ok.1 hq
    exact ih (h.advance hp) hq

theorem silent_layers (hs : Schedule.Made env units s) :
    Silent ({ env } : Report) s.layers.flatten :=
  ⟨hs.nodup_flatten, by simp⟩

section Reporting
variable (hd : d.ReportsAll)
include hd

/-- One module comes to the same under all settings, but for the warnings. -/
theorem result_advance_keeping (hp : ∀ r : Report, pick (r.keeping c) = pick r)
    (hm : r.warnings[m]? = none) : (advance pick c s (r.keeping c) m).result =
      Report.keeping c <$> (advance pick d s r m).result := by
  by_cases hb : m ∈ r.blocked
  · have hb' : m ∈ (r.keeping c).blocked := hb
    rw [advance_of_mem hb, advance_of_mem hb']
    rfl
  · have hb' : m ∉ (r.keeping c).blocked := hb
    rw [advance_of_notMem hb, advance_of_notMem hb', Logged.result_bind, Logged.result_bind,
      map_bind]
    congr 1
    funext u
    dsimp only
    rw [hp, u.resolve_keeping hd, Report.enter_keeping hm]

theorem result_foldlM_advance_keeping (hp : ∀ r : Report, pick (r.keeping c) = pick r)
    (h : Silent r ms) : (ms.foldlM (advance pick c s) (r.keeping c)).result =
      Report.keeping c <$> (ms.foldlM (advance pick d s) r).result := by
  rw [Logged.result_foldlM, Logged.result_foldlM]
  refine foldlM_hom (P := fun ms r => Silent r ms) ?_ ?_ h
  · intro r m ms hr
    exact result_advance_keeping hd hp (hr.2 m List.mem_cons_self)
  · intro r q m ms hr hq
    exact hr.advance hq

theorem result_resolveLayer_keeping (permits permits' : Permits) (arrival arrival' : Arrival)
    (hs : Schedule.Made env units s) {l : List ModuleName} (hl : l ∈ s.layers) (h : Silent r l) :
    (resolveLayer permits arrival c s (r.keeping c) l).result =
      Report.keeping c <$> (resolveLayer permits' arrival' d s r l).result := by
  rw [(result_resolveLayer permits arrival c (r.keeping c) hs hl).1,
    (result_resolveLayer permits' arrival' d r hs hl).1]
  exact result_foldlM_advance_keeping hd (fun _ => rfl) h

/-- Modules in turn come to the same under all settings, but for the warnings. -/
theorem sequential_keeping :
    sequential units c env = Report.keeping c <$> sequential units d env := by
  cases hmake : Schedule.make env units with
  | error e =>
    rw [sequential_of_error hmake, sequential_of_error hmake]
    rfl
  | ok s =>
    rw [sequential_of_make hmake, sequential_of_make hmake]
    nth_rewrite 1 [← Report.keeping_begin c env]
    rw [← Logged.result_foldlM, ← Logged.result_foldlM]
    exact result_foldlM_advance_keeping hd (fun _ => rfl)
      (silent_layers (Schedule.made_of_make hmake))

/-- Modules side by side come to the same under all settings that do not make them panic, but for
the warnings. -/
theorem concurrent_keeping (arrival arrival' : Arrival) (hc : c.maxParallel.toNat ≤ maxPermits)
    (hmax : d.maxParallel.toNat ≤ maxPermits) : concurrent arrival units c env =
      (concurrent arrival' units d env).map (Report.keeping c <$> ·) := by
  cases hmake : Schedule.make env units with
  | error e =>
    rw [concurrent_of_error hmake, concurrent_of_error hmake]
    rfl
  | ok s =>
    have hs := Schedule.made_of_make hmake
    obtain ⟨permits, hpermits⟩ := Settings.exists_permits hc
    obtain ⟨permits', hpermits'⟩ := Settings.exists_permits hmax
    rw [concurrent_of_make hmake, concurrent_of_make hmake, hpermits, hpermits', Option.map_some,
      Option.map_some, Option.map_some]
    nth_rewrite 1 [← Report.keeping_begin c env]
    -- Ahead of each step are layers of the schedule, and nothing is reported on their modules.
    refine congrArg some
      (foldlM_hom (P := fun ls r => (∀ l ∈ ls, l ∈ s.layers) ∧ Silent r ls.flatten) ?_ ?_
        ⟨fun _ hl => hl, silent_layers hs⟩)
    · intro r l ls hr
      exact result_resolveLayer_keeping hd permits permits' arrival arrival' hs
        (hr.1 l List.mem_cons_self) hr.2.left
    · intro r q l ls hr hq
      rw [(result_resolveLayer permits' arrival' d r hs (hr.1 l List.mem_cons_self)).1] at hq
      exact ⟨fun k hk => hr.1 k (List.mem_cons_of_mem l hk), hr.2.foldlM_advance hq⟩

end Reporting

/-- Of a build under different settings, these decide only which warnings it reports. -/
structure ReportsOnly (build : Settings → Except Failure Report) : Prop where
  fails : ∀ (c d : Settings) (e : Failure), build c = .error e ↔ build d = .error e
  outcome : ∀ (c d : Settings) (r q : Report), build c = .ok r → build d = .ok q →
    r.env = q.env ∧ r.failures = q.failures ∧ r.blocked = q.blocked
  /-- What is reported on a module are those of all its warnings that the settings report, in the
  same order, and a module without any has no entry. -/
  warnings : ∀ (c d : Settings) (r q : Report), d.ReportsAll → build c = .ok r →
    build d = .ok q → ∀ m : ModuleName,
      r.warnings[m]? = (q.warnings[m]?.map (List.filter c.reports)).filter (!·.isEmpty)
  parallel : ∀ (c : Settings) (n : UInt64), build { c with maxParallel := n } = build c

theorem ReportsOnly.of_keeping {build : Settings → Except Failure Report}
    (all : Except Failure Report) (h : ∀ c, build c = Report.keeping c <$> all) :
    ReportsOnly build := by
  obtain rfl := funext h
  have hsame {c d : Settings} {r q : Report} (hr : Report.keeping c <$> all = .ok r)
      (hq : Report.keeping d <$> all = .ok q) :
      ∃ p : Report, r = p.keeping c ∧ q = p.keeping d := by
    obtain ⟨p, hp, rfl⟩ := except_map_eq_ok.1 hr
    obtain ⟨p', hp', rfl⟩ := except_map_eq_ok.1 hq
    obtain rfl := Except.ok.inj (hp.symm.trans hp')
    exact ⟨p, rfl, rfl⟩
  refine ⟨fun c d e => ?_, fun c d r q hr hq => ?_, fun c d r q hd hr hq m => ?_, fun c n => ?_⟩
  · cases all with
    | error e => rfl
    | ok r => exact ⟨(nomatch ·), (nomatch ·)⟩
  · obtain ⟨p, rfl, rfl⟩ := hsame hr hq
    exact ⟨rfl, rfl, rfl⟩
  · obtain ⟨p, rfl, rfl⟩ := hsame hr hq
    rw [← Report.keeping_keeping hd, Report.warnings_keeping]
  · have hreports : ({ c with maxParallel := n } : Settings).reports = c.reports := by
      funext w
      cases w <;> rfl
    have hkeeping : Report.keeping { c with maxParallel := n } = Report.keeping c := by
      funext r
      rw [Report.keeping, Report.keeping, hreports]
    exact congrArg (· <$> all) hkeeping

/-- Settings change nothing in a build but which warnings it reports, when modules are resolved in
turn. When they are resolved side by side, that is so of all settings that ask for no more permits
than there can be, whatever the order in which the modules come to their end. -/
theorem reportsOnly_build (units : List ScheduledModule) (env : Environment)
    (arrival : Settings → Arrival) : ReportsOnly (fun c => sequential units c env) ∧
      ∃ build, ReportsOnly build ∧ ∀ c : Settings, c.maxParallel.toNat ≤ maxPermits →
        concurrent (arrival c) units c env = some (build c) := by
  have hall : ({} : Settings).ReportsAll := ⟨rfl, rfl⟩
  have hmax : ({} : Settings).maxParallel.toNat ≤ maxPermits := by decide
  obtain ⟨all, hbuild⟩ : ∃ all, concurrent (arrival {}) units {} env = some all :=
    exists_concurrent hmax
  refine ⟨.of_keeping _ fun c => sequential_keeping hall, _, .of_keeping all fun c => rfl,
    fun c hc => ?_⟩
  rw [concurrent_keeping hall (arrival c) (arrival {}) hc hmax, hbuild]
  rfl

end Build

end ModuleExports
