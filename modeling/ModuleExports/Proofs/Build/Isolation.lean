import Mathlib
import ModuleExports.Proofs.Build.Order
import ModuleExports.Proofs.Reexport.Reads

/-!
How far a change to one module reaches. Main statement: two builds of programs that differ only in
what one module declares, imports and exports come to the same for every other module that does not
depend on it, as long as no module imports from a scheduled one that it does not depend on.
-/
namespace ModuleExports
open Std

/-- The modules differ at most in what they declare, import and export, and then both are `v`. -/
structure ScheduledModule.EqButFor (v : ModuleName) (u u' : ScheduledModule) : Prop where
  name : u.name = u'.name
  dependencies : u.dependencies = u'.dependencies
  eq : u.name ≠ v → u = u'

/-- The module imports from no scheduled module but itself and those that it depends on. -/
def ScheduledModule.ImportsDeclared (u : ScheduledModule) (units : List ScheduledModule) : Prop :=
  ∀ k ∈ u.imports.sources, k = u.name ∨
    Relation.TransGen (Schedule.Depends units) u.name k ∨ k ∉ Schedule.names units

namespace Schedule
variable {units units' : List ScheduledModule} {v m d : ModuleName} {u : ScheduledModule}

/-- The programs are the same but for what `v` declares, imports and exports. -/
def EqButFor (v : ModuleName) (units units' : List ScheduledModule) : Prop :=
  List.Forall₂ (ScheduledModule.EqButFor v) units units'

namespace EqButFor

theorem symm (h : EqButFor v units units') : EqButFor v units' units :=
  List.Forall₂.flip (h.imp fun _ _ h => ⟨h.name.symm, h.dependencies.symm,
    fun hne => (h.eq (h.name ▸ hne)).symm⟩)

theorem exists_of_mem (h : EqButFor v units units') (hu : u ∈ units) :
    ∃ u' ∈ units', u.EqButFor v u' :=
  exists_of_mem_forall₂ h hu

theorem mem_of_ne (h : EqButFor v units units') (hu : u ∈ units) (hne : u.name ≠ v) :
    u ∈ units' := by
  obtain ⟨u', hu', hw⟩ := h.exists_of_mem hu
  exact hw.eq hne ▸ hu'

theorem names_eq (h : EqButFor v units units') : names units = names units' := by
  induction h with
  | nil => rfl
  | cons hw _ ih => exact congrArg₂ List.cons hw.name ih

theorem depends (h : EqButFor v units units') (hd : Depends units m d) : Depends units' m d := by
  obtain ⟨⟨u, hu, hum, hud⟩, hd⟩ := hd
  obtain ⟨u', hu', hw⟩ := h.exists_of_mem hu
  exact ⟨⟨u', hu', hw.name ▸ hum, hw.dependencies ▸ hud⟩, h.names_eq ▸ hd⟩

theorem depends_eq (h : EqButFor v units units') : Depends units = Depends units' :=
  funext fun _ => funext fun _ => propext ⟨h.depends, h.symm.depends⟩

end EqButFor

theorem eqButFor_map {f : ScheduledModule → ScheduledModule} (units : List ScheduledModule)
    (hf : ∀ u : ScheduledModule, u.EqButFor v (f u)) : EqButFor v units (units.map f) :=
  List.forall₂_map_right_iff.2 (List.forall₂_same.2 fun u _ => hf u)

end Schedule

/-- The module has come to the same in both builds. -/
structure Report.Agree (r r' : Report) (m : ModuleName) : Prop where
  table : r.env.get? m = r'.env.get? m
  failure : r.failures[m]? = r'.failures[m]?
  warnings : r.warnings[m]? = r'.warnings[m]?
  blocked : m ∈ r.blocked ↔ m ∈ r'.blocked

namespace Build
variable {units units' : List ScheduledModule} {settings : Settings} {env : Environment}
  {s : Schedule} {r r' : Report} {arrival arrival' : Arrival} {run run' : Run Report}
  {as : List Attempt} {a a' : Attempt} {m k v : ModuleName}

/-- A build leaves the tables of all modules alone that are not scheduled. -/
theorem get?_of_notMem_names (hs : Schedule.Made env units s)
    (h : Progress settings s { env } s.layers.flatten as r) (hk : k ∉ Schedule.names units) :
    r.env.get? k = env.get? k :=
  congrArg Standing.table (standing_of_notMem hs h fun hm => hk ((attempted_iff hs h).1 hm).1)

/-- Of the modules that it depends on, and of those not scheduled, an attempt sees all that the
build yields in the end. -/
theorem get?_of_mem_log (hrun : run = runSequential units settings env ∨
    runConcurrent arrival units settings env = some run) (h : run.result = .ok r) (ha : a ∈ run.log)
    (hk : Relation.TransGen (Schedule.Depends units) a.unit.name k ∨ k ∉ Schedule.names units) :
    a.env.get? k = r.env.get? k := by
  obtain ⟨s, hs, hp⟩ := exists_progress hrun h
  obtain ⟨t, ht, done, rest, past, q, hst⟩ := exists_starts_of_mem hrun ha
  have hw := hp.within_of_mem ha
  rcases hk with hk | hk
  · obtain ⟨-, -, x, -, -, hx⟩ := hst.published ht (ht.reaches_iff.2 hk)
    exact hx.trans (hw k x hx).symm
  · have hframe := get?_of_notMem_names hs hp hk
    exact Option.ext fun x => ⟨hw k x, fun hx => hst.base k x (hframe ▸ hx)⟩

section Pair
variable
  (hrun : run = runSequential units settings env ∨
    runConcurrent arrival units settings env = some run)
  (h : run.result = .ok r)
  (hrun' : run' = runSequential units' settings env ∨
    runConcurrent arrival' units' settings env = some run')
  (h' : run'.result = .ok r') (hunits : Schedule.EqButFor v units units')
include hrun h hrun' h' hunits

/-- Attempts at one module come to the same in both builds when these agree on all that the module
depends on. -/
theorem outcome_congr (ha : a ∈ run.log) (ha' : a' ∈ run'.log) (hunit : a'.unit = a.unit)
    (himports : a.unit.ImportsDeclared units)
    (hagree : ∀ d, Relation.TransGen (Schedule.Depends units) a.unit.name d → r.Agree r' d) :
    a.outcome settings = a'.outcome settings := by
  have hsees : ∀ k ∈ a.unit.imports.sources, k ≠ a.unit.name →
      a.env.get? k = a'.env.get? k := by
    intro k hk hne
    have hk := (himports k hk).resolve_left hne
    have hk' : Relation.TransGen (Schedule.Depends units') a'.unit.name k ∨
        k ∉ Schedule.names units' := by
      rwa [hunit, ← hunits.depends_eq, ← hunits.names_eq]
    have hyield : r.env.get? k = r'.env.get? k := by
      rcases hk with hk | hk
      · exact (hagree k hk).table
      · obtain ⟨s, hs, hp⟩ := exists_progress hrun h
        obtain ⟨s', hs', hp'⟩ := exists_progress hrun' h'
        rw [get?_of_notMem_names hs hp hk,
          get?_of_notMem_names hs' hp' (hunits.names_eq ▸ hk)]
    rw [get?_of_mem_log hrun h ha hk, hyield, get?_of_mem_log hrun' h' ha' hk']
  rw [Attempt.outcome, Attempt.outcome, hunit]
  exact ModuleSource.resolve_congr hsees

theorem blocked_congr
    (hagree : ∀ d, Relation.TransGen (Schedule.Depends units) m d → r.Agree r' d) :
    m ∈ r.blocked ↔ m ∈ r'.blocked := by
  obtain ⟨s, hs, hp⟩ := exists_progress hrun h
  obtain ⟨s', hs', hp'⟩ := exists_progress hrun' h'
  rw [blocked_iff hs hp, blocked_iff hs' hp', ← hunits.depends_eq]
  refine exists_congr fun f => and_congr_left fun hf => ?_
  rw [ExtTreeMap.mem_iff_isSome_getElem?, ExtTreeMap.mem_iff_isSome_getElem?, (hagree f hf).failure]

/-- A module comes to the same in both builds when these agree on all that it depends on. -/
theorem agree_of_forall_depends {u : ScheduledModule} (hu : u ∈ units) (hne : u.name ≠ v)
    (himports : u.ImportsDeclared units)
    (hagree : ∀ d, Relation.TransGen (Schedule.Depends units) u.name d → r.Agree r' d) :
    r.Agree r' u.name := by
  obtain ⟨s, hs, hp⟩ := exists_progress hrun h
  obtain ⟨s', hs', hp'⟩ := exists_progress hrun' h'
  have hblocked := blocked_congr hrun h hrun' h' hunits hagree
  have hstanding : r.standing u.name = r'.standing u.name := by
    by_cases hb : u.name ∈ r.blocked
    · rw [standing_of_notMem hs hp fun hm => ((attempted_iff hs hp).1 hm).2 hb,
        standing_of_notMem hs' hp' fun hm => ((attempted_iff hs' hp').1 hm).2 (hblocked.1 hb)]
    · obtain ⟨a, ha, rfl⟩ := (exists_attempt_iff hs hp).2 ⟨hu, hb⟩
      obtain ⟨a', ha', hunit⟩ :=
        (exists_attempt_iff hs' hp').2 ⟨hunits.mem_of_ne hu hne, mt hblocked.2 hb⟩
      rw [standing_of_mem hs hp ha,
        outcome_congr hrun h hrun' h' hunits ha ha' hunit himports hagree,
        ← standing_of_mem hs' hp' ha', hunit]
  exact ⟨congrArg Standing.table hstanding, congrArg Standing.failure hstanding,
    congrArg Standing.warnings hstanding, hblocked⟩

end Pair

/-- What changes in one module changes nothing for the modules that do not depend on it. -/
theorem agree_of_eqButFor (arrival arrival' : Arrival)
    (hrun : run = runSequential units settings env ∨
      runConcurrent arrival units settings env = some run)
    (hrun' : run' = runSequential units' settings env ∨
      runConcurrent arrival' units' settings env = some run')
    (hunits : Schedule.EqButFor v units units')
    (himports : ∀ u ∈ units, u.name ≠ v → u.ImportsDeclared units)
    (h : run.result = .ok r) (h' : run'.result = .ok r') :
    ∀ u ∈ units, u.name ≠ v → ¬ Relation.TransGen (Schedule.Depends units) u.name v →
      r.Agree r' u.name := by
  obtain ⟨s, hs, -⟩ := exists_progress hrun h
  suffices hm : ∀ m ∈ Schedule.names units, m ≠ v →
      ¬ Relation.TransGen (Schedule.Depends units) m v → r.Agree r' m from
    fun u hu => hm u.name (Schedule.mem_names.2 ⟨u, hu, rfl⟩)
  refine hs.induction_on_depends fun m hm ih hne hdep => ?_
  obtain ⟨u, hu, rfl⟩ := Schedule.mem_names.1 hm
  refine agree_of_forall_depends hrun h hrun' h' hunits hu hne (himports u hu hne) fun d hd => ?_
  -- What does not depend on the changed module depends on nothing that does.
  refine ih d hd ?_ fun hdv => hdep (hd.trans hdv)
  rintro rfl
  exact hdep hd

/-- `sampleProgram` with a `C` that does not fail, and does not block `D`. -/
def sampleRepair : List ScheduledModule :=
  sampleProgram.map fun u => if u.name = ⟨"C"⟩ then { u with exportList := none } else u

theorem eqButFor_sampleRepair : Schedule.EqButFor ⟨"C"⟩ sampleProgram sampleRepair := by
  refine Schedule.eqButFor_map _ fun u => ?_
  split
  next h => exact ⟨rfl, rfl, fun hne => absurd h hne⟩
  next => exact ⟨rfl, rfl, fun _ => rfl⟩

theorem depends_sampleProgram_iff : Schedule.Depends sampleProgram ⟨"B"⟩ m ↔ m = ⟨"A"⟩ := by
  simp +contextual [Schedule.Depends, Schedule.names, sampleProgram]

theorem importsDeclared_sampleProgram : ∀ u ∈ sampleProgram, u.ImportsDeclared sampleProgram := by
  have hsources : ∀ u ∈ sampleProgram, ∀ k ∈ u.imports.sources, u.name = ⟨"B"⟩ ∧ k = ⟨"A"⟩ := by
    decide +kernel
  intro u hu k hk
  obtain ⟨hu, hk⟩ := hsources u hu k hk
  exact .inr (.inl (hu ▸ .single (depends_sampleProgram_iff.2 hk)))

theorem not_depends_sampleProgram :
    ¬ Relation.TransGen (Schedule.Depends sampleProgram) ⟨"B"⟩ ⟨"C"⟩ := by
  intro h
  obtain ⟨d, hd, h⟩ := Relation.TransGen.head'_iff.1 h
  obtain rfl := depends_sampleProgram_iff.1 hd
  rcases h.cases_head with h | ⟨d, hd, -⟩
  · simp at h
  · simp [Schedule.Depends, sampleProgram] at hd

/-- Whether `C` fails or not, `B` comes to the same. -/
theorem agree_of_eqButFor_sampleRepair : ∃ r r' : Report,
    (runSequential sampleProgram {} {}).result = .ok r ∧
    (runSequential sampleRepair {} {}).result = .ok r' ∧
    (r.failures.keys, r'.failures.keys) = ([⟨"C"⟩], []) ∧ r.Agree r' ⟨"B"⟩ := by
  obtain ⟨r, hr, hkeys⟩ : ∃ r : Report, (runSequential sampleProgram {} {}).result = .ok r ∧
      r.failures.keys = [⟨"C"⟩] := except_map_eq_ok.1 (by cbv)
  obtain ⟨r', hr', hkeys'⟩ : ∃ r' : Report, (runSequential sampleRepair {} {}).result = .ok r' ∧
      r'.failures.keys = [] := except_map_eq_ok.1 (by cbv)
  refine ⟨r, r', hr, hr', by rw [hkeys, hkeys'], ?_⟩
  exact agree_of_eqButFor .asStarted .asStarted (.inl rfl) (.inl rfl) eqButFor_sampleRepair
    (fun u hu _ => importsDeclared_sampleProgram u hu) hr hr' sampleProgram[2] (by simp) (by decide)
    not_depends_sampleProgram

end Build

end ModuleExports
