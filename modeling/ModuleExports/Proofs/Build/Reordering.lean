import Mathlib
import ModuleExports.Proofs.Build.Progress
import ModuleExports.Proofs.Build.Refusal

/-!
The order in which the modules of a program and the dependencies of each are listed. Main statement:
a build comes to the same whatever that order, but for what it names when there is no schedule.
-/
namespace ModuleExports
open Std

/-- One module, which may list its dependencies in two ways. -/
structure ScheduledModule.Same (u u' : ScheduledModule) : Prop where
  source : u.toModuleSource = u'.toModuleSource
  dependencies : ∀ d, d ∈ u.dependencies ↔ d ∈ u'.dependencies

/-- Two failures of one kind, a defect or a cycle, which may name different modules. -/
def Failure.SameKind (e e' : Failure) : Prop :=
  e.isDefect ∧ e'.isDefect ∨ ∃ ms ms', e = .circularDependency ms ∧ e' = .circularDependency ms'

namespace Schedule
variable {units units' : List ScheduledModule} {env : Environment} {s s' : Schedule}
  {u : ScheduledModule} {m a b : ModuleName}

/-- The modules are listed in another order, and so may each list its dependencies. -/
def Reordered (units units' : List ScheduledModule) : Prop :=
  ∃ mid, units.Perm mid ∧ List.Forall₂ ScheduledModule.Same mid units'

namespace Reordered

theorem symm (h : Reordered units units') : Reordered units' units := by
  obtain ⟨mid, hp, hs⟩ := h
  obtain ⟨mid', hs', hp'⟩ := List.perm_comp_forall₂ hp hs
  exact ⟨mid', hp'.symm, List.Forall₂.flip (hs'.imp fun _ _ h =>
    ⟨h.source.symm, fun d => (h.dependencies d).symm⟩)⟩

theorem exists_of_mem (h : Reordered units units') (hu : u ∈ units) : ∃ u' ∈ units', u.Same u' := by
  obtain ⟨mid, hp, hs⟩ := h
  exact exists_of_mem_forall₂ hs (hp.mem_iff.1 hu)

theorem names_perm (h : Reordered units units') : (names units).Perm (names units') := by
  obtain ⟨mid, hp, hs⟩ := h
  have hnames : names mid = names units' := by
    clear hp
    induction hs with
    | nil => rfl
    | cons hu _ ih => exact congrArg₂ List.cons (congrArg ModuleSource.name hu.source) ih
  exact hnames ▸ hp.map _

theorem mem_names (h : Reordered units units') : m ∈ names units ↔ m ∈ names units' :=
  h.names_perm.mem_iff

theorem depends_of_depends (h : Reordered units units') (hd : Depends units a b) :
    Depends units' a b := by
  obtain ⟨⟨u, hu, hua, hub⟩, hb⟩ := hd
  obtain ⟨u', hu', hs⟩ := h.exists_of_mem hu
  exact ⟨⟨u', hu', (congrArg ModuleSource.name hs.source).symm.trans hua,
    (hs.dependencies b).1 hub⟩, h.mem_names.1 hb⟩

theorem depends_eq (h : Reordered units units') : Depends units = Depends units' := by
  funext a b
  exact propext ⟨h.depends_of_depends, h.symm.depends_of_depends⟩

theorem missing_of_missing (h : Reordered units units') (hm : Missing env units) :
    Missing env units' := by
  obtain ⟨u, hu, d, hd, hnames, henv⟩ := hm
  obtain ⟨u', hu', hs⟩ := h.exists_of_mem hu
  exact ⟨u', hu', d, (hs.dependencies d).1 hd, mt h.mem_names.2 hnames, henv⟩

theorem missing_iff (h : Reordered units units') : Missing env units ↔ Missing env units' :=
  ⟨h.missing_of_missing, h.symm.missing_of_missing⟩

theorem clash_iff (h : Reordered units units') : Clash env units ↔ Clash env units' := by
  simp only [Clash, h.names_perm.nodup_iff, h.mem_names]

theorem cyclic_iff (h : Reordered units units') : Cyclic units ↔ Cyclic units' := by
  rw [Cyclic, Cyclic, h.depends_eq]

theorem exists_make_iff (h : Reordered units units') :
    (∃ s, make env units = .ok s) ↔ ∃ s', make env units' = .ok s' := by
  rw [Schedule.exists_make_iff, Schedule.exists_make_iff, h.clash_iff, h.missing_iff, h.cyclic_iff]

end Reordered

/-- A schedule is refused for the same kind of reason, whatever the order. -/
theorem Reordered.refused (h : Reordered units units') {e : Failure}
    (he : make env units = .error e) : ∃ e', make env units' = .error e' ∧ e.SameKind e' := by
  by_cases hc : Clash env units
  · obtain ⟨m, hm⟩ := make_of_clash hc
    obtain ⟨m', hm'⟩ := make_of_clash (h.clash_iff.1 hc)
    obtain rfl := Except.error.inj (he.symm.trans hm)
    exact ⟨_, hm', .inl ⟨rfl, rfl⟩⟩
  · have hc' := mt h.clash_iff.2 hc
    by_cases hm : Missing env units
    · obtain ⟨d, m, hd⟩ := make_of_missing hc hm
      obtain ⟨d', m', hd'⟩ := make_of_missing hc' (h.missing_iff.1 hm)
      obtain rfl := Except.error.inj (he.symm.trans hd)
      exact ⟨_, hd', .inl ⟨rfl, rfl⟩⟩
    · by_cases hcy : Cyclic units
      · have hcycle := make_of_cyclic hc hm hcy
        have hcycle' := make_of_cyclic hc' (mt h.missing_iff.2 hm) (h.cyclic_iff.1 hcy)
        obtain rfl := Except.error.inj (he.symm.trans hcycle)
        exact ⟨_, hcycle', .inr ⟨_, _, rfl, rfl⟩⟩
      · obtain ⟨s, hs⟩ := Schedule.exists_make_iff.2 ⟨hc, hm, hcy⟩
        simp [hs] at he

/-- Two schedules have the same layers, find the same modules, and block the same ones. -/
structure Equivalent (s s' : Schedule) : Prop where
  layers : s.layers = s'.layers
  find : ∀ m, ScheduledModule.toModuleSource <$> s.find m =
    ScheduledModule.toModuleSource <$> s'.find m
  dependents : ∀ m, s.graph.allDependents m = s'.graph.allDependents m

theorem Reordered.equivalent (h : Reordered units units') (hs : make env units = .ok s)
    (hs' : make env units' = .ok s') : s.Equivalent s' := by
  have hmade := made_of_make hs
  have hmade' := made_of_make hs'
  refine ⟨?_, fun m => ?_, fun m => ExtTreeSet.ext_mem fun k => ?_⟩
  · have hmodules (m : ModuleName) : m ∈ s.graph.modules ↔ m ∈ s'.graph.modules := by
      rw [hmade.modules, hmade'.modules, h.mem_names]
    have hedges (a b : ModuleName) : (a, b) ∈ s.graph.edges ↔ (a, b) ∈ s'.graph.edges := by
      rw [hmade.edges, hmade'.edges, h.depends_eq]
    have hlayers := DependencyGraph.layers_congr hmodules hedges (layers_of_make hs).2
    exact Except.ok.inj (hlayers.symm.trans (layers_of_make hs').2)
  · by_cases hm : m ∈ names units
    · obtain ⟨u, hu, rfl⟩ := Schedule.mem_names.1 hm
      obtain ⟨u', hu', hsame⟩ := h.exists_of_mem hu
      have hname := congrArg ModuleSource.name hsame.source
      rw [(hmade.find _ u).2 ⟨hu, rfl⟩, (hmade'.find _ u').2 ⟨hu', hname.symm⟩]
      exact congrArg Except.ok hsame.source
    · rw [hmade.find_of_notMem hm, hmade'.find_of_notMem (mt h.mem_names.2 hm)]
  · rw [DependencyGraph.mem_allDependents, DependencyGraph.mem_allDependents, hmade.reaches_iff,
      hmade'.reaches_iff, h.depends_eq]

end Schedule

theorem Report.enter_congr {g g' : DependencyGraph} {m : ModuleName}
    (h : g.allDependents m = g'.allDependents m) (r : Report) (o : Outcome Interface) :
    r.enter g m o = r.enter g' m o := by
  unfold enter
  rw [h]

namespace Build
variable {units units' : List ScheduledModule} {env : Environment} {settings : Settings}
  {s s' : Schedule} {arrival : Arrival}

/-- A step goes by what the schedule finds and what it blocks. -/
theorem result_advance_equivalent (h : s.Equivalent s') (pick : Report → Environment) (r : Report)
    (m : ModuleName) :
    (advance pick settings s r m).result = (advance pick settings s' r m).result := by
  by_cases hb : m ∈ r.blocked
  · rw [advance_of_mem hb, advance_of_mem hb]
  · have hstep (s : Schedule) : (advance pick settings s r m).result =
        ScheduledModule.toModuleSource <$> s.find m >>= fun u =>
          r.enter s.graph m (u.resolve (pick r) settings) := by
      rw [advance_of_notMem hb, Logged.result_bind, bind_map_left]
      rfl
    rw [hstep, hstep, h.find]
    congr 1
    funext u
    exact Report.enter_congr (h.dependents m) r _

/-- Modules in turn come to the same by equivalent schedules. -/
theorem sequential_equivalent (h : s.Equivalent s') (hs : Schedule.make env units = .ok s)
    (hs' : Schedule.make env units' = .ok s') :
    sequential units settings env = sequential units' settings env := by
  rw [sequential_of_make hs, sequential_of_make hs', h.layers,
    funext fun r => funext (result_advance_equivalent h Report.env r)]

/-- Modules side by side come to the same by equivalent schedules. -/
theorem concurrent_equivalent (h : s.Equivalent s') (hs : Schedule.make env units = .ok s)
    (hs' : Schedule.make env units' = .ok s') (arrival arrival' : Arrival) :
    concurrent arrival units settings env = concurrent arrival' units' settings env := by
  rw [concurrent_of_make hs, concurrent_of_make hs', ← h.layers]
  congr 1
  funext permits
  refine foldlM_congr (P := fun _ => True) (fun _ _ _ _ _ _ => trivial) (fun r l hl _ => ?_) trivial
  rw [(result_resolveLayer permits arrival settings r (Schedule.made_of_make hs) hl).1,
    (result_resolveLayer permits arrival' settings r (Schedule.made_of_make hs')
      (h.layers ▸ hl)).1, Logged.result_foldlM, Logged.result_foldlM,
    funext fun q => funext (result_advance_equivalent h (fun _ => r.env) q)]

/-- Two builds, of programs that are the same but for the order in which they are listed, come to
the same. -/
structure OrderFree (env : Environment) (units units' : List ScheduledModule)
    (build build' : Except Failure Report) : Prop where
  /-- One build succeeds when the other does, with the same report in all its parts. -/
  succeeds : ∀ r, build = .ok r ↔ build' = .ok r
  scheduled : (∃ s, Schedule.make env units = .ok s) ↔ ∃ s', Schedule.make env units' = .ok s'
  /-- Once there is a schedule, the builds are broken off by the same failure. -/
  aborts : ∀ s e, Schedule.make env units = .ok s → (build = .error e ↔ build' = .error e)
  /-- Without a schedule, both builds fail, and for the same kind of reason. -/
  refused : ∀ e, Schedule.make env units = .error e → build = .error e ∧
    ∃ e', Schedule.make env units' = .error e' ∧ build' = .error e' ∧ e.SameKind e'

/-- With a schedule, one and the same build does. -/
theorem OrderFree.of_make (h : Schedule.Reordered units units')
    (hs : Schedule.make env units = .ok s) (build : Except Failure Report) :
    OrderFree env units units' build build :=
  ⟨fun _ => .rfl, h.exists_make_iff, fun _ _ _ => .rfl, fun e he => by simp [hs] at he⟩

theorem OrderFree.of_refused (h : Schedule.Reordered units units') {e e' : Failure}
    (he : Schedule.make env units = .error e) (he' : Schedule.make env units' = .error e')
    (hkind : e.SameKind e') : OrderFree env units units' (.error e) (.error e') := by
  refine ⟨fun r => by simp, h.exists_make_iff, fun s d hs => by simp [he] at hs, fun d hd => ?_⟩
  obtain rfl := Except.error.inj (he.symm.trans hd)
  exact ⟨rfl, e', he', rfl, hkind⟩

/-- Neither the order of the modules nor that of the dependencies of each matters to a build, in
turn or side by side, and if one build side by side panics, so does the other. -/
theorem orderFree_build (h : Schedule.Reordered units units') (settings : Settings)
    (env : Environment) (arrival arrival' : Arrival) :
    OrderFree env units units' (sequential units settings env) (sequential units' settings env) ∧
      Option.Rel (OrderFree env units units') (concurrent arrival units settings env)
        (concurrent arrival' units' settings env) := by
  cases hs : Schedule.make env units with
  | ok s =>
    obtain ⟨s', hs'⟩ := h.exists_make_iff.1 ⟨s, hs⟩
    have hequiv := h.equivalent hs hs'
    rw [sequential_equivalent hequiv hs hs', concurrent_equivalent hequiv hs hs' arrival arrival']
    refine ⟨.of_make h hs _, ?_⟩
    cases concurrent arrival' units' settings env with
    | none => exact .none
    | some build => exact .some (.of_make h hs build)
  | error e =>
    obtain ⟨e', hs', hkind⟩ := h.refused hs
    rw [sequential_of_error hs, sequential_of_error hs', concurrent_of_error hs,
      concurrent_of_error hs']
    exact ⟨.of_refused h hs hs' hkind, .some (.of_refused h hs hs' hkind)⟩

/-- `sampleProgram` from its end, with each dependency listed twice. -/
def sampleReordered : List ScheduledModule :=
  sampleProgram.reverse.map fun u => { u with dependencies := u.dependencies ++ u.dependencies }

theorem reordered_sampleReordered : Schedule.Reordered sampleProgram sampleReordered :=
  ⟨_, (List.reverse_perm sampleProgram).symm,
    List.forall₂_map_right_iff.2 (List.forall₂_same.2 fun u _ => ⟨rfl, by simp⟩)⟩

/-- The dependents of `C`, which fails, are blocked in whatever order the modules are listed. -/
theorem orderFree_build_sampleReordered : ∃ r : Report,
    sequential sampleProgram {} {} = .ok r ∧ sequential sampleReordered {} {} = .ok r ∧
      r.failures.keys = [⟨"C"⟩] ∧ r.blocked.toList = [⟨"D"⟩] := by
  obtain ⟨r, hr, hkeys⟩ : ∃ r : Report, sequential sampleProgram {} {} = .ok r ∧
      (r.failures.keys, r.blocked.toList) = ([⟨"C"⟩], [⟨"D"⟩]) := except_map_eq_ok.1 (by cbv)
  have hfree := (orderFree_build reordered_sampleReordered {} {} .asStarted .asStarted).1
  obtain ⟨hfailures, hblocked⟩ := Prod.mk.inj hkeys
  exact ⟨r, hr, (hfree.succeeds r).1 hr, hfailures, hblocked⟩

end Build

end ModuleExports
