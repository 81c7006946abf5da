import ModuleExports.Build.Run
import ModuleExports.Proofs.Build.Report
import ModuleExports.Proofs.Build.Schedule

/-!
How a build goes on, whichever way its modules are resolved. Main statements: modules side by side
come to the same as modules one after another in the environment that the layer began with, and each
build that succeeds goes through its schedule in order, leaving out what is blocked and resolving
all else in a part of the environment built so far.
-/
namespace ModuleExports
open Std

/-- Sorting by name undoes the order in which the resolutions of a layer came to their end. -/
theorem Arrival.mergeSort_order (arrival : Arrival) {fs : List Finished}
    (h : fs.Pairwise fun a b => compare a.module b.module = .lt) :
    ((arrival.order fs).mergeSort fun a b => (compare a.module b.module).isLE) = fs := by
  have hperm := (List.mergeSort_perm (arrival.order fs)
    fun a b => (compare a.module b.module).isLE).trans (arrival.perm fs)
  have hanti : ∀ a ∈ fs, ∀ b ∈ fs, (compare a.module b.module).isLE →
      (compare b.module a.module).isLE → a = b :=
    List.Pairwise.forall_of_forall_of_flip (fun _ _ _ _ => rfl)
      (h.imp fun hab _ hba => absurd hba (OrientedCmp.not_isLE_of_lt hab))
      (h.imp fun hab hba => absurd hba (OrientedCmp.not_isLE_of_lt hab))
  have htotal (a b : Finished) :
      (compare a.module b.module).isLE || (compare b.module a.module).isLE := by
    by_cases hba : (compare b.module a.module).isLE
    · simp [hba]
    · simp [Ordering.isLE_of_eq_lt (OrientedCmp.lt_of_not_isLE hba)]
  have hsorted := List.pairwise_mergeSort (fun _ _ _ => TransCmp.isLE_trans) htotal
    (arrival.order fs)
  exact List.Perm.eq_of_pairwise (fun a b ha hb => hanti a (hperm.mem_iff.1 ha) b hb) hsorted
    (h.imp Ordering.isLE_of_eq_lt) hperm

namespace Build
variable {settings : Settings} {s : Schedule} {r r' : Report} {ms : List ModuleName}
  {as : List Attempt}

/-- A build goes on from a report, through modules in order, by attempts, to a report. -/
inductive Progress (settings : Settings) (s : Schedule) :
    Report → List ModuleName → List Attempt → Report → Prop where
  | done {r : Report} : Progress settings s r [] [] r
  | skip {r r' : Report} {m : ModuleName} {ms : List ModuleName} {as : List Attempt} :
      m ∈ r.blocked → Progress settings s r ms as r' → Progress settings s r (m :: ms) as r'
  | step {r q r' : Report} {m : ModuleName} {ms : List ModuleName} {a : Attempt}
      {as : List Attempt} : m ∉ r.blocked → s.find m = .ok a.unit → a.env.Within r.env →
      r.enter s.graph m (a.outcome settings) = .ok q → Progress settings s q ms as r' →
      Progress settings s r (m :: ms) (a :: as) r'

theorem Progress.append {q : Report} {ns : List ModuleName} {bs : List Attempt}
    (h : Progress settings s r ms as q) (h' : Progress settings s q ns bs r') :
    Progress settings s r (ms ++ ns) (as ++ bs) r' := by
  induction h with
  | done => exact h'
  | skip hm _ ih => exact .skip hm (ih h')
  | step hm hf hw he _ ih => exact .step hm hf hw he (ih h')

/-- Resolves one module, unless it is blocked, in the environment that `pick` chooses. -/
def advance (pick : Report → Environment) (settings : Settings) (s : Schedule) (r : Report)
    (m : ModuleName) : Run Report := do
  if r.blocked.contains m then return r
  let a ← attempt s (pick r) m
  .ofExcept (r.enter s.graph m (a.outcome settings))

theorem resolveNext_eq_advance : resolveNext settings s = advance Report.env settings s := rfl

section Make
variable {units : List ScheduledModule} {env : Environment} {arrival : Arrival} {e : Failure}
  {run : Run Report}

/-- A run side by side does nothing without a schedule, and else has permits to go through it. -/
theorem runConcurrent_eq_some (h : runConcurrent arrival units settings env = some run) :
    (∃ e, Schedule.make env units = .error e ∧ run = .fail e) ∨
    ∃ s permits, Schedule.make env units = .ok s ∧ settings.permits? = some permits ∧
      run = s.layers.foldlM (resolveLayer permits arrival settings s) { env } := by
  unfold runConcurrent at h
  cases hs : Schedule.make env units with
  | error e =>
    rw [hs] at h
    exact .inl ⟨e, rfl, (Option.some.inj h).symm⟩
  | ok s =>
    rw [hs] at h
    obtain ⟨permits, hpermits, rfl⟩ := Option.map_eq_some_iff.1 h
    exact .inr ⟨s, permits, rfl, hpermits, rfl⟩

/-- With a schedule, a build in turn steps through its modules. -/
theorem sequential_of_make (h : Schedule.make env units = .ok s) :
    sequential units settings env =
      s.layers.flatten.foldlM (fun r m => (advance Report.env settings s r m).result) { env } := by
  rw [sequential, runSequential, Logged.bind_of_ok h]
  exact Logged.result_foldlM _ _ _

/-- With a schedule, a build side by side steps through its layers if it has permits, and else
panics. -/
theorem concurrent_of_make (h : Schedule.make env units = .ok s) :
    concurrent arrival units settings env = settings.permits?.map fun permits =>
      s.layers.foldlM (fun r l => (resolveLayer permits arrival settings s r l).result)
        { env } := by
  rw [concurrent, runConcurrent, h, Option.map_map]
  congr 1
  funext permits
  exact Logged.result_foldlM _ _ _

theorem sequential_of_error (h : Schedule.make env units = .error e) :
    sequential units settings env = .error e := by
  rw [sequential, runSequential, h, Logged.bind_of_error rfl]

theorem concurrent_of_error (h : Schedule.make env units = .error e) :
    concurrent arrival units settings env = some (.error e) := by
  rw [concurrent, runConcurrent, h]
  rfl

/-- A build side by side does not panic if there can be as many permits as it asks for. -/
theorem exists_concurrent (h : settings.maxParallel.toNat ≤ maxPermits) :
    ∃ build, concurrent arrival units settings env = some build := by
  cases hs : Schedule.make env units with
  | error e => exact ⟨_, concurrent_of_error hs⟩
  | ok s =>
    obtain ⟨permits, hpermits⟩ := Settings.exists_permits h
    rw [concurrent_of_make hs, hpermits]
    exact ⟨_, rfl⟩

end Make

theorem advance_of_mem {pick : Report → Environment} {m : ModuleName} (h : m ∈ r.blocked) :
    advance pick settings s r m = pure r := by
  simp [advance, ExtTreeSet.contains_iff_mem.2 h]

theorem advance_of_notMem {pick : Report → Environment} {m : ModuleName} (h : m ∉ r.blocked) :
    advance pick settings s r m = .ofExcept (s.find m) >>= fun u =>
      ⟨[⟨u, pick r⟩], r.enter s.graph m (u.resolve (pick r) settings)⟩ := by
  have hb : r.blocked.contains m = false := Bool.eq_false_iff.2 (mt ExtTreeSet.contains_iff_mem.1 h)
  simp only [advance, hb, Bool.false_eq_true, ↓reduceIte]
  rw [attempt, bind_assoc]
  rfl

theorem advance_of_find {pick : Report → Environment} {m : ModuleName} {u : ScheduledModule}
    (h : m ∉ r.blocked) (hu : s.find m = .ok u) : advance pick settings s r m =
      ⟨[⟨u, pick r⟩], r.enter s.graph m (u.resolve (pick r) settings)⟩ := by
  rw [advance_of_notMem h, hu]
  rfl

/-- Modules that are resolved in turn, each in a part of what was built before it, make progress. -/
theorem progress_of_foldlM {pick : Report → Environment}
    (hp : ∀ q : Report, r.env.Within q.env → (pick q).Within q.env)
    (h : (ms.foldlM (advance pick settings s) r).result = .ok r') :
    Progress settings s r ms (ms.foldlM (advance pick settings s) r).log r' := by
  -- As environments only grow, what is assumed of `pick` at `r` holds at every later report.
  induction ms generalizing r with
  | nil =>
    obtain rfl := except_pure_eq_ok.1 h
    exact .done
  | cons m ms ih =>
    rw [List.foldlM_cons] at h ⊢
    obtain ⟨q, hq, h⟩ := Logged.result_bind_eq_ok.1 h
    rw [Logged.log_bind_of_ok hq]
    by_cases hm : m ∈ r.blocked
    · rw [advance_of_mem hm] at hq ⊢
      obtain rfl := except_pure_eq_ok.1 hq
      exact .skip hm (ih hp h)
    · rw [advance_of_notMem hm] at hq ⊢
      obtain ⟨u, hu, he⟩ := Logged.result_bind_eq_ok.1 hq
      rw [Logged.log_bind_of_ok hu]
      exact .step hm hu (hp r (.refl _)) he
        (ih (fun t ht => hp t ((Report.within_enter he).trans ht)) h)

/-- In modules that do not depend on each other, resolved in one environment, those that are due can
be told beforehand. -/
theorem foldlM_advance_const (settings : Settings) (env : Environment) {q : Report}
    {us : List ScheduledModule} (hf : ∀ m u, s.find m = .ok u → u.name = m)
    (hn : ∀ a ∈ ms, ∀ b ∈ ms, ¬ s.graph.Reaches a b)
    (hq : ∀ m ∈ ms, m ∈ q.blocked ↔ m ∈ r.blocked)
    (hus : (ms.filter (!r.blocked.contains ·)).mapM s.find = .ok us) :
    (ms.foldlM (advance (fun _ => env) settings s) q).result =
      us.foldlM (fun r u => r.enter s.graph u.name (u.resolve env settings)) q ∧
    ∀ t, (ms.foldlM (advance (fun _ => env) settings s) q).result = .ok t →
      (ms.foldlM (advance (fun _ => env) settings s) q).log = us.map (⟨·, env⟩) := by
  -- Of the modules that are left, the report `q` reached so far blocks those that `r` blocks.
  induction ms generalizing q us with
  | nil =>
    obtain rfl := except_pure_eq_ok.1 hus
    exact ⟨rfl, fun _ _ => rfl⟩
  | cons m ms ih =>
    have hn' : ∀ a ∈ ms, ∀ b ∈ ms, ¬ s.graph.Reaches a b := fun a ha b hb =>
      hn a (List.mem_cons_of_mem m ha) b (List.mem_cons_of_mem m hb)
    rw [List.foldlM_cons]
    by_cases hm : m ∈ r.blocked
    · rw [advance_of_mem ((hq m List.mem_cons_self).2 hm), pure_bind]
      exact ih hn' (fun k hk => hq k (List.mem_cons_of_mem m hk)) (by simpa [hm] using hus)
    · have hb : r.blocked.contains m = false :=
        Bool.eq_false_iff.2 (mt ExtTreeSet.contains_iff_mem.1 hm)
      rw [List.filter_cons_of_pos (by simp [hb]), List.mapM_cons] at hus
      obtain ⟨u, hu, hus⟩ := except_bind_eq_ok.1 hus
      obtain ⟨vs, hvs, h⟩ := except_bind_eq_ok.1 hus
      obtain rfl := except_pure_eq_ok.1 h
      obtain rfl := hf m u hu
      rw [advance_of_find (mt (hq u.name List.mem_cons_self).1 hm) hu, List.foldlM_cons]
      cases he : q.enter s.graph u.name (u.resolve env settings) with
      | error e =>
        rw [Logged.bind_of_error rfl]
        exact ⟨rfl, fun t ht => by cases ht⟩
      | ok p =>
        -- What this module came to blocks none of the rest.
        obtain ⟨hr, hl⟩ := ih (q := p) hn' (fun k hk => by
          rw [Report.mem_blocked_enter he, ← hq k (List.mem_cons_of_mem _ hk)]
          exact or_iff_left fun h =>
            hn k (List.mem_cons_of_mem _ hk) u.name List.mem_cons_self h.2.2) hvs
        rw [Logged.bind_of_ok rfl]
        exact ⟨hr, fun t ht => congrArg (List.cons (⟨u, env⟩ : Attempt)) (hl t ht)⟩

section Layers
variable {env : Environment} {units : List ScheduledModule} {permits : Permits} {arrival : Arrival}
  {l : List ModuleName}

theorem attempt_of_find {m : ModuleName} {u : ScheduledModule} (h : s.find m = .ok u) :
    attempt s env m = ⟨[⟨u, env⟩], .ok ⟨u, env⟩⟩ := by
  rw [attempt, h]
  rfl

/-- Modules that the schedule finds are attempted in turn, all in one environment. -/
theorem mapM_attempt {us : List ScheduledModule} (h : ms.mapM s.find = .ok us) :
    ms.mapM (attempt s env) = ⟨us.map (⟨·, env⟩), .ok (us.map (⟨·, env⟩))⟩ := by
  induction ms generalizing us with
  | nil =>
    obtain rfl := except_pure_eq_ok.1 h
    rfl
  | cons m ms ih =>
    rw [List.mapM_cons] at h
    obtain ⟨u, hu, h⟩ := except_bind_eq_ok.1 h
    obtain ⟨vs, hvs, h⟩ := except_bind_eq_ok.1 h
    obtain rfl := except_pure_eq_ok.1 h
    rw [List.mapM_cons, attempt_of_find hu, ih hvs, Logged.bind_of_ok rfl, Logged.bind_of_ok rfl]
    simp

/-- A layer is resolved by attempts at what is not blocked, all in the environment that it began
with, and what they come to is entered in the order of the names. -/
theorem exists_resolveLayer_eq (permits : Permits) (arrival : Arrival) (settings : Settings)
    (r : Report) (hs : Schedule.Made env units s) (hl : l ∈ s.layers) :
    ∃ us, (l.filter (!r.blocked.contains ·)).mapM s.find = .ok us ∧
      resolveLayer permits arrival settings s r l = ⟨us.map (⟨·, r.env⟩),
        us.foldlM (fun q u => q.enter s.graph u.name (u.resolve r.env settings)) r⟩ := by
  obtain ⟨us, hus⟩ : ∃ us, (l.filter (!r.blocked.contains ·)).mapM s.find = .ok us :=
    exists_mapM_eq_ok fun m hm =>
      hs.exists_find (List.mem_flatten.2 ⟨l, hl, List.mem_of_mem_filter hm⟩)
  have hsorted : ((us.map (⟨·, r.env⟩)).map (Attempt.finish settings)).Pairwise
      fun a b => compare a.module b.module = .lt := by
    have h := (hs.layered.increasing hl).filter (!r.blocked.contains ·)
    rw [← hs.names_of_mapM hus, Schedule.names, List.pairwise_map] at h
    exact List.pairwise_map.2 (List.pairwise_map.2 h)
  refine ⟨us, hus, ?_⟩
  rw [resolveLayer, mapM_attempt hus, Logged.bind_of_ok rfl]
  dsimp only
  rw [resolveAll_eq_map, arrival.mergeSort_order hsorted, List.foldlM_map, List.foldlM_map,
    Logged.log_ofExcept, Logged.result_ofExcept, List.append_nil]
  rfl

/-- A layer comes to the same side by side as in turn, in the environment that it began with. -/
theorem result_resolveLayer (permits : Permits) (arrival : Arrival) (settings : Settings)
    (r : Report) (hs : Schedule.Made env units s) (hl : l ∈ s.layers) :
    (resolveLayer permits arrival settings s r l).result =
      (l.foldlM (advance (fun _ => r.env) settings s) r).result ∧
    ∀ t, (resolveLayer permits arrival settings s r l).result = .ok t →
      (resolveLayer permits arrival settings s r l).log =
        (l.foldlM (advance (fun _ => r.env) settings s) r).log := by
  obtain ⟨us, hus, hlayer⟩ := exists_resolveLayer_eq permits arrival settings r hs hl
  obtain ⟨hr, hlog⟩ := foldlM_advance_const settings r.env (q := r)
    hs.name_of_find (fun a ha b hb => hs.layered.not_reaches hl ha hb)
    (fun _ _ => .rfl) hus
  rw [hlayer, hr]
  exact ⟨rfl, fun t ht => (hlog t (hr.trans ht)).symm⟩

theorem progress_of_resolveLayer (hs : Schedule.Made env units s) (hl : l ∈ s.layers)
    (h : (resolveLayer permits arrival settings s r l).result = .ok r') :
    Progress settings s r l (resolveLayer permits arrival settings s r l).log r' := by
  obtain ⟨hr, hlog⟩ := result_resolveLayer permits arrival settings r hs hl
  rw [hlog r' h]
  exact progress_of_foldlM (fun _ hq => hq) (hr ▸ h)

theorem progress_of_layers (hs : Schedule.Made env units s) {ls : List (List ModuleName)}
    (hls : ∀ l ∈ ls, l ∈ s.layers)
    (h : (ls.foldlM (resolveLayer permits arrival settings s) r).result = .ok r') :
    Progress settings s r ls.flatten (ls.foldlM (resolveLayer permits arrival settings s) r).log
      r' := by
  induction ls generalizing r with
  | nil =>
    obtain rfl := except_pure_eq_ok.1 h
    exact .done
  | cons l ls ih =>
    rw [List.foldlM_cons] at h ⊢
    obtain ⟨q, hq, h⟩ := Logged.result_bind_eq_ok.1 h
    rw [Logged.log_bind_of_ok hq]
    exact (progress_of_resolveLayer hs (hls l List.mem_cons_self) hq).append
      (ih (fun k hk => hls k (List.mem_cons_of_mem l hk)) h)

/-- A build that succeeds, in turn or side by side, has gone through a schedule. -/
theorem exists_progress {run : Run Report} (hrun : run = runSequential units settings env ∨
    runConcurrent arrival units settings env = some run) (h : run.result = .ok r) :
    ∃ s, Schedule.Made env units s ∧ Progress settings s { env } s.layers.flatten run.log r := by
  rcases hrun with rfl | hrun
  · rw [runSequential] at h ⊢
    obtain ⟨s, hs, h⟩ := Logged.result_bind_eq_ok.1 h
    rw [Logged.log_bind_of_ok hs]
    rw [resolveNext_eq_advance] at h ⊢
    exact ⟨s, Schedule.made_of_make hs, progress_of_foldlM (fun q _ => .refl q.env) h⟩
  · obtain ⟨e, -, rfl⟩ | ⟨s, permits, hs, -, rfl⟩ := runConcurrent_eq_some hrun
    · cases h
    · have hmade := Schedule.made_of_make hs
      exact ⟨s, hmade, progress_of_layers hmade (fun _ hl => hl) h⟩

end Layers

/-- A value, a type and one of its constructors, all declared in `A` and imported from `m`. -/
def sampleImports (m : ModuleName) : Imports :=
  let imported (name : String) : List ImportRecord := [⟨m, name, ⟨"A"⟩, .null, .implicit⟩]
  (({} : Imports).openModule m).append (.inNamespace .value) ⟨none, "f"⟩ (imported "f")
    |>.append (.inNamespace .type) ⟨none, "T"⟩ (imported "T")
    |>.append .dataConstructor ⟨none, "X"⟩ (imported "X")

/-- The module `B` re-exports a part of `A`, `C` exports a value that it does not declare, and `D`
depends on `C`. -/
def sampleProgram : List ScheduledModule := [
  { name := ⟨"D"⟩, dependencies := [⟨"C"⟩, ⟨"A"⟩] },
  { name := ⟨"C"⟩, exportList := some [⟨.null, .value "g"⟩], dependencies := [⟨"A"⟩] },
  { name := ⟨"B"⟩, imports := sampleImports ⟨"A"⟩, exportList := some [⟨.null, .module ⟨"A"⟩⟩],
    dependencies := [⟨"A"⟩] },
  { name := ⟨"A"⟩, declarations := [.value "f", .data "T" ["X", "Y"]] }]

end Build

end ModuleExports
