import Mathlib
import ModuleExports.Proofs.Build.Progress
import ModuleExports.Proofs.Reexport.Reads

/-!
The two ways to build a program. Main statement: with a schedule in which no module imports from
another one of its own layer they come to the same, report or failure, unless more modules may be
resolved at once than there can be permits; then modules side by side come to a panic.
-/
namespace ModuleExports

/-- No scheduled module imports from another module of its own layer. -/
def Schedule.Independent (s : Schedule) (units : List ScheduledModule) : Prop :=
  ∀ l ∈ s.layers, ∀ u ∈ units, u.name ∈ l → ∀ k ∈ u.imports.sources, k ∈ l → k = u.name

namespace Build
variable {units : List ScheduledModule} {settings : Settings} {env : Environment} {s : Schedule}
  {r q : Report} {l : List ModuleName} {m : ModuleName}

/-- A step within a layer touches the environment nowhere but in the layer. -/
theorem get?_env_advance_of_notMem {pick : Report → Environment} (hm : m ∈ l)
    (h : (advance pick settings s r m).result = .ok q) {k : ModuleName} (hk : k ∉ l) :
    q.env.get? k = r.env.get? k := by
  by_cases hb : m ∈ r.blocked
  · rw [advance_of_mem hb] at h
    rw [except_pure_eq_ok.1 h]
  · rw [advance_of_notMem hb] at h
    obtain ⟨u, -, he⟩ := Logged.result_bind_eq_ok.1 h
    exact Report.get?_env_enter_of_ne he (ne_of_mem_of_not_mem hm hk)

/-- What the modules of a layer add to the environment is not read within the layer. -/
theorem result_advance_congr (hs : Schedule.Made env units s) (hi : s.Independent units)
    (hl : l ∈ s.layers) (hm : m ∈ l) (hq : ∀ k ∉ l, q.env.get? k = r.env.get? k) :
    (advance (fun _ => r.env) settings s q m).result =
      (advance Report.env settings s q m).result := by
  by_cases hb : m ∈ q.blocked
  · rw [advance_of_mem hb, advance_of_mem hb]
  · obtain ⟨u, hu⟩ := hs.exists_find (List.mem_flatten.2 ⟨l, hl, hm⟩)
    obtain ⟨hunits, rfl⟩ := (hs.find m u).1 hu
    have hread : u.resolve r.env settings = u.resolve q.env settings := by
      refine ModuleSource.resolve_congr fun k hk hne => (hq k fun hkl => hne ?_).symm
      exact hi l hl u hunits hm k hk hkl
    rw [advance_of_find hb hu, advance_of_find hb hu]
    dsimp only
    rw [hread]

theorem result_foldlM_advance_congr (hs : Schedule.Made env units s) (hi : s.Independent units)
    (hl : l ∈ s.layers) (settings : Settings) (r : Report) :
    (l.foldlM (advance (fun _ => r.env) settings s) r).result =
      (l.foldlM (advance Report.env settings s) r).result := by
  rw [Logged.result_foldlM, Logged.result_foldlM]
  exact foldlM_congr (P := fun q => ∀ k ∉ l, q.env.get? k = r.env.get? k)
    (fun q t m hm hq ht k hk => (get?_env_advance_of_notMem hm ht hk).trans (hq k hk))
    (fun q m hm hq => result_advance_congr hs hi hl hm hq) (fun _ _ => rfl)

/-- Modules side by side come to the same as modules in turn, in whatever order they finish, as long
as there can be permits for as many of them as may be resolved at once; beyond that they panic. -/
theorem concurrent_eq_sequential (arrival : Arrival) (settings : Settings)
    (hs : Schedule.make env units = .ok s) (hi : s.Independent units) :
    concurrent arrival units settings env =
      if settings.maxParallel.toNat ≤ maxPermits then some (sequential units settings env)
      else none := by
  rw [concurrent_of_make hs]
  split
  next hle =>
    obtain ⟨permits, hpermits⟩ := Settings.exists_permits hle
    have hmade := Schedule.made_of_make hs
    rw [hpermits, Option.map_some, sequential_of_make hs, foldlM_flatten]
    refine congrArg some (foldlM_congr (P := fun _ => True) (fun _ _ _ _ _ _ => trivial)
      (fun r l hl _ => ?_) trivial)
    rw [(result_resolveLayer permits arrival settings r hmade hl).1,
      result_foldlM_advance_congr hmade hi hl, Logged.result_foldlM]
  next hle => rw [Settings.permits?_eq_none_iff.2 (Nat.lt_of_not_le hle), Option.map_none]

theorem exists_independent_sampleProgram : ∃ s, Schedule.make {} sampleProgram = .ok s ∧
    s.Independent sampleProgram := by
  obtain ⟨s, hs, hl⟩ : ∃ s, Schedule.make {} sampleProgram = .ok s ∧
      s.layers = [[⟨"A"⟩], [⟨"B"⟩, ⟨"C"⟩], [⟨"D"⟩]] := except_map_eq_ok.1 (by cbv)
  refine ⟨s, hs, ?_⟩
  unfold Schedule.Independent
  rw [hl]
  decide +kernel

theorem concurrent_eq_sequential_sampleProgram : ∃ s, Schedule.make {} sampleProgram = .ok s ∧
    s.Independent sampleProgram ∧ concurrent ⟨List.reverse, List.reverse_perm⟩ sampleProgram {} {} =
      some (sequential sampleProgram {} {}) := by
  obtain ⟨s, hs, hi⟩ := exists_independent_sampleProgram
  exact ⟨s, hs, hi, (concurrent_eq_sequential _ _ hs hi).trans (if_pos (by decide))⟩

/-- Settings that ask for one permit too many. -/
def sampleExcess : Settings := { maxParallel := .ofNat (maxPermits + 1) }

/-- A program that is built in turn panics side by side. -/
theorem concurrent_ne_sequential_sampleExcess : ∃ s, Schedule.make {} sampleProgram = .ok s ∧
    s.Independent sampleProgram ∧ (∃ r, sequential sampleProgram sampleExcess {} = .ok r) ∧
    ∀ arrival, concurrent arrival sampleProgram sampleExcess {} = none := by
  obtain ⟨s, hs, hi⟩ := exists_independent_sampleProgram
  refine ⟨s, hs, hi, ?_, fun arrival => ?_⟩
  · obtain ⟨r, hr, -⟩ : ∃ r, sequential sampleProgram sampleExcess {} = .ok r ∧
        r.failures.keys = [⟨"C"⟩] := except_map_eq_ok.1 (by cbv)
    exact ⟨r, hr⟩
  · rw [concurrent_of_make hs, Settings.permits?_eq_none_iff.2 (by decide), Option.map_none]

end Build

end ModuleExports
