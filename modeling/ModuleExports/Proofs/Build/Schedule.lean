import Mathlib.Data.List.Induction
import ModuleExports.Build.Schedule
import ModuleExports.Proofs.Graph.Layering

/-!
What a schedule holds. Main statement: a schedule that is made has each scheduled module once, with
an edge for each dependency of one scheduled module on another, and layers in the order of these.
-/
namespace ModuleExports
open Std

namespace DependencyGraph
variable {g : DependencyGraph} {a b m d : ModuleName}

theorem mem_modules_insert : a ∈ (g.insert m).modules ↔ a ∈ g.modules ∨ a = m := by
  unfold insert
  split
  next hm =>
    refine ⟨.inl, ?_⟩
    rintro (ha | rfl)
    · exact ha
    · exact hm
  next => simp

@[simp] theorem modules_connect : (g.connect m d).modules = g.modules := by
  unfold connect
  split <;> rfl

theorem mem_edges_connect : (a, b) ∈ (g.connect m d).edges ↔
    (a, b) ∈ g.edges ∨ a = m ∧ b = d ∧ m ∈ g.modules ∧ d ∈ g.modules := by
  unfold connect
  split
  next h => simp [h]
  next h =>
    refine ⟨.inl, ?_⟩
    rintro (he | ⟨rfl, rfl, hm, hd⟩)
    · exact he
    · by_contra he
      exact h ⟨hm, hd, he⟩

theorem mem_modules_foldl_insert {α : Type} {f : α → ModuleName} {xs : List α} :
    a ∈ (xs.foldl (fun g x => g.insert (f x)) g).modules ↔ a ∈ g.modules ∨ a ∈ xs.map f := by
  induction xs generalizing g with
  | nil => simp
  | cons x xs ih => simp [ih, mem_modules_insert, or_assoc]

theorem edges_foldl_insert {α : Type} {f : α → ModuleName} {xs : List α} :
    (xs.foldl (fun g x => g.insert (f x)) g).edges = g.edges := by
  induction xs generalizing g with
  | nil => rfl
  | cons x xs ih =>
    rw [List.foldl_cons, ih, insert]
    split <;> rfl

theorem modules_foldl_connect {ds : List ModuleName} :
    (ds.foldl (fun g d => g.connect m d) g).modules = g.modules := by
  induction ds generalizing g with
  | nil => rfl
  | cons d ds ih => rw [List.foldl_cons, ih, modules_connect]

theorem mem_edges_foldl_connect {ds : List ModuleName} :
    (a, b) ∈ (ds.foldl (fun g d => g.connect m d) g).edges ↔
      (a, b) ∈ g.edges ∨ a = m ∧ b ∈ ds ∧ m ∈ g.modules ∧ b ∈ g.modules := by
  induction ds generalizing g with
  | nil => simp
  | cons d ds ih =>
    rw [List.foldl_cons, ih, mem_edges_connect, modules_connect, List.mem_cons]
    grind

end DependencyGraph

namespace Schedule
variable {env : Environment} {units : List ScheduledModule} {s : Schedule} {m a b : ModuleName}
  {u : ScheduledModule}

/-- The names of the scheduled modules. -/
def names (units : List ScheduledModule) : List ModuleName := units.map (·.name)

/-- The scheduled module `a` says that it depends on the scheduled module `b`. -/
def Depends (units : List ScheduledModule) (a b : ModuleName) : Prop :=
  (∃ u ∈ units, u.name = a ∧ b ∈ u.dependencies) ∧ b ∈ names units

/-- A module needs what it says it depends on, and what the scheduled modules among that need. -/
def Needs (units : List ScheduledModule) (m d : ModuleName) : Prop :=
  ∃ u ∈ units, Relation.ReflTransGen (Depends units) m u.name ∧ d ∈ u.dependencies

theorem mem_names : m ∈ names units ↔ ∃ u ∈ units, u.name = m := by
  simp [names]

theorem names_concat : names (units ++ [u]) = names units ++ [u.name] := by
  simp [names]

/-- Connects a module with all that it says it depends on. -/
def connectAll (g : DependencyGraph) (u : ScheduledModule) : DependencyGraph :=
  u.dependencies.foldl (fun g d => g.connect u.name d) g

theorem modules_foldl_connectAll {g : DependencyGraph} :
    (units.foldl connectAll g).modules = g.modules := by
  induction units generalizing g with
  | nil => rfl
  | cons u us ih => rw [List.foldl_cons, ih, connectAll, DependencyGraph.modules_foldl_connect]

theorem mem_edges_foldl_connectAll {g : DependencyGraph} (hg : ∀ u ∈ units, u.name ∈ g.modules) :
    (a, b) ∈ (units.foldl connectAll g).edges ↔ (a, b) ∈ g.edges ∨
      (∃ u ∈ units, u.name = a ∧ b ∈ u.dependencies) ∧ b ∈ g.modules := by
  induction units generalizing g with
  | nil => simp
  | cons u us ih =>
    have hu := hg u List.mem_cons_self
    have hmodules : (connectAll g u).modules = g.modules := DependencyGraph.modules_foldl_connect
    rw [List.foldl_cons, ih fun v hv => hmodules ▸ hg v (List.mem_cons_of_mem u hv), hmodules,
      connectAll, DependencyGraph.mem_edges_foldl_connect]
    simp only [List.exists_mem_cons_iff]
    grind

theorem mem_modules_foldl_insert_empty :
    m ∈ (units.foldl (fun g u => g.insert u.name) (∅ : DependencyGraph)).modules ↔
      m ∈ names units := by
  rw [DependencyGraph.mem_modules_foldl_insert, names]
  exact or_iff_right List.not_mem_nil

theorem mem_modules_dependencyGraph : m ∈ (dependencyGraph units).modules ↔ m ∈ names units := by
  change m ∈ (units.foldl connectAll _).modules ↔ _
  rw [modules_foldl_connectAll, mem_modules_foldl_insert_empty]

theorem mem_edges_dependencyGraph : (a, b) ∈ (dependencyGraph units).edges ↔ Depends units a b := by
  have hmodules : ∀ u ∈ units, u.name ∈ (units.foldl (fun g u => g.insert u.name)
      (∅ : DependencyGraph)).modules := by
    intro u hu
    exact mem_modules_foldl_insert_empty.2 (List.mem_map_of_mem hu)
  change (a, b) ∈ (units.foldl connectAll _).edges ↔ _
  rw [mem_edges_foldl_connectAll hmodules, mem_modules_foldl_insert_empty,
    DependencyGraph.edges_foldl_insert, Depends]
  exact or_iff_right List.not_mem_nil

/-- Indexing succeeds only where every name is new, and then finds every module by its name. -/
theorem index_eq_ok {known : ModuleMap ScheduledModule} (h : index env units = .ok known) :
    (∀ u ∈ units, env.get? u.name = none) ∧ (names units).Nodup ∧
      ∀ m u, known[m]? = some u ↔ u ∈ units ∧ u.name = m := by
  induction units using List.reverseRecOn generalizing known with
  | nil =>
    obtain rfl := except_pure_eq_ok.1 h
    simp [names]
  | append_singleton units u ih =>
    rw [index, List.foldlM_append] at h
    obtain ⟨before, hb, h⟩ := except_bind_eq_ok.1 h
    obtain ⟨hf, hn, hk⟩ := ih hb
    simp only [List.foldlM_cons, List.foldlM_nil] at h
    split at h
    next => cases h
    next hnew =>
      obtain rfl := except_pure_eq_ok.1 h
      simp only [Bool.or_eq_true, not_or, Environment.contains_eq_isSome,
        ExtTreeMap.contains_eq_isSome_getElem?, Option.not_isSome_iff_eq_none] at hnew
      have hfresh : ∀ v ∈ units, v.name ≠ u.name := fun v hv hvu => by
        simp [(hk u.name v).2 ⟨hv, hvu⟩] at hnew
      refine ⟨?_, ?_, fun m v => ?_⟩
      · simpa [or_imp, forall_and, hnew.1] using hf
      · simpa [names, List.nodup_append] using And.intro hn hfresh
      · rw [ExtTreeMap.getElem?_insert]
        grind

/-- What is known of a schedule that could be made. -/
structure Made (env : Environment) (units : List ScheduledModule) (s : Schedule) : Prop where
  fresh : ∀ u ∈ units, env.get? u.name = none
  nodup : (names units).Nodup
  find : ∀ m u, s.find m = .ok u ↔ u ∈ units ∧ u.name = m
  modules : ∀ m, m ∈ s.graph.modules ↔ m ∈ names units
  edges : ∀ a b, (a, b) ∈ s.graph.edges ↔ Depends units a b
  layered : s.graph.Layered s.layers
  perm : s.layers.flatten.Perm s.graph.modules

theorem find_eq_ok : s.find m = .ok u ↔ s.units[m]? = some u := by
  unfold find
  split
  next h => simp [h]
  next h => simp [h]

theorem failsOnly_find : FailsOnly (· = .internal (.unplanned m)) (s.find m) := by
  unfold find
  split
  · exact .ok _
  · exact .error rfl

theorem made_of_make (h : make env units = .ok s) : Made env units s := by
  obtain ⟨known, hk, h⟩ := except_bind_eq_ok.1 h
  obtain ⟨-, -, h⟩ := except_bind_eq_ok.1 h
  obtain ⟨layers, hl, h⟩ := except_bind_eq_ok.1 h
  obtain rfl := except_pure_eq_ok.1 h
  obtain ⟨hf, hn, hk⟩ := index_eq_ok hk
  obtain ⟨hlay, hperm⟩ := DependencyGraph.layered_of_layers hl
  exact ⟨hf, hn, fun m u => find_eq_ok.trans (hk m u), fun m => mem_modules_dependencyGraph,
    fun a b => mem_edges_dependencyGraph, hlay, hperm⟩

theorem layers_of_make (h : make env units = .ok s) :
    s.graph = dependencyGraph units ∧ s.graph.layers = .ok s.layers := by
  obtain ⟨known, -, h⟩ := except_bind_eq_ok.1 h
  obtain ⟨-, -, h⟩ := except_bind_eq_ok.1 h
  obtain ⟨layers, hl, h⟩ := except_bind_eq_ok.1 h
  obtain rfl := except_pure_eq_ok.1 h
  exact ⟨rfl, hl⟩

theorem contains_index {known : ModuleMap ScheduledModule} (hk : index env units = .ok known) :
    known.contains m ↔ m ∈ names units := by
  rw [ExtTreeMap.contains_eq_isSome_getElem?, Option.isSome_iff_exists, mem_names]
  exact exists_congr fun u => (index_eq_ok hk).2.2 m u

/-- The check passes where each dependency is scheduled as well or is there already. -/
theorem checkDependencies_eq_ok {known : ModuleMap ScheduledModule}
    (hk : index env units = .ok known) : checkDependencies env known u = .ok () ↔
      ∀ d ∈ u.dependencies, d ∈ names units ∨ ∃ x, env.get? d = some x := by
  have hfind : checkDependencies env known u = .ok () ↔
      u.dependencies.find? (fun d => !(known.contains d || env.contains d)) = none := by
    unfold checkDependencies
    split
    next h => exact iff_of_false nofun (by simp only [h, reduceCtorEq, not_false_eq_true])
    next h => exact iff_of_true rfl h
  rw [hfind, List.find?_eq_none]
  simp only [Bool.not_eq_true', Bool.not_eq_false, Bool.or_eq_true, contains_index hk,
    Environment.contains_eq_isSome, Option.isSome_iff_exists]

/-- What a scheduled module says it depends on is scheduled as well or is there already. -/
theorem declared_of_make (h : make env units = .ok s) {u : ScheduledModule} (hu : u ∈ units)
    {d : ModuleName} (hd : d ∈ u.dependencies) : d ∈ names units ∨ ∃ x, env.get? d = some x := by
  obtain ⟨known, hk, h⟩ := except_bind_eq_ok.1 h
  obtain ⟨_, hcheck, -⟩ := except_bind_eq_ok.1 h
  exact (checkDependencies_eq_ok hk).1 (forM_eq_ok.1 hcheck u hu) d hd

/-- What a scheduled module needs it depends on, unless it is there already. -/
theorem depends_or_known_of_needs (h : make env units = .ok s) {d : ModuleName}
    (hd : Needs units m d) :
    Relation.TransGen (Depends units) m d ∨ ∃ x, env.get? d = some x := by
  obtain ⟨u, hu, hm, hdu⟩ := hd
  refine (declared_of_make h hu hdu).imp_left fun hnames => ?_
  exact Relation.TransGen.tail'_iff.2 ⟨u.name, hm, ⟨u, hu, rfl, hdu⟩, hnames⟩

namespace Made

theorem name_of_find (h : Made env units s) (m : ModuleName) (u : ScheduledModule)
    (hu : s.find m = .ok u) : u.name = m :=
  ((h.find m u).1 hu).2

theorem mem_flatten (h : Made env units s) : m ∈ s.layers.flatten ↔ m ∈ names units :=
  h.perm.mem_iff.trans (h.modules m)

theorem nodup_flatten (h : Made env units s) : s.layers.flatten.Nodup :=
  h.perm.nodup_iff.2 s.graph.modules_nodup

theorem exists_find (h : Made env units s) (hm : m ∈ s.layers.flatten) :
    ∃ u, s.find m = .ok u := by
  obtain ⟨u, hu, hum⟩ := mem_names.1 (h.mem_flatten.1 hm)
  exact ⟨u, (h.find m u).2 ⟨hu, hum⟩⟩

theorem find_of_notMem (h : Made env units s) (hm : m ∉ names units) :
    s.find m = .error (.internal (.unplanned m)) := by
  cases hu : s.find m with
  | ok u => exact absurd (mem_names.2 ⟨u, (h.find m u).1 hu⟩) hm
  | error e => rw [failsOnly_find e hu]

theorem reaches_iff (h : Made env units s) :
    s.graph.Reaches a b ↔ Relation.TransGen (Depends units) a b := by
  simp only [DependencyGraph.Reaches, h.edges]

theorem not_reaches_self (h : Made env units s) : ¬ s.graph.Reaches m m :=
  h.layered.not_reaches_self h.perm

/-- No module depends on one that is ahead of it in the order of the layers. -/
theorem not_reaches_ahead (h : Made env units s) {done rest : List ModuleName}
    (hms : s.layers.flatten = done ++ m :: rest) (hd : a ∈ m :: rest) : ¬ s.graph.Reaches m a := by
  have hp := h.layered.pairwise_flatten
  rw [hms, List.pairwise_append, List.pairwise_cons] at hp
  rcases List.mem_cons.1 hd with rfl | hd
  · exact h.not_reaches_self
  · exact hp.2.1.1 a hd

/-- What a module depends on is behind, as long as none of it is ahead. -/
theorem mem_behind (h : Made env units s) {done rest : List ModuleName}
    (hms : s.layers.flatten = done ++ rest) (hahead : ∀ k ∈ rest, ¬ s.graph.Reaches m k)
    (hd : s.graph.Reaches m a) : a ∈ done := by
  have ha := h.perm.mem_iff.2 hd.mem_right
  rw [hms, List.mem_append] at ha
  exact ha.resolve_right fun hr => hahead a hr hd

/-- What holds of a module whenever it holds of all that the module depends on holds of every
scheduled module. -/
theorem induction_on_depends (h : Made env units s) {P : ModuleName → Prop}
    (hstep : ∀ m ∈ names units, (∀ d, Relation.TransGen (Depends units) m d → P d) → P m) :
    ∀ m ∈ names units, P m := by
  -- By induction on the modules that are behind, in the order of the layers.
  suffices hbehind : ∀ done rest, s.layers.flatten = done ++ rest → ∀ m ∈ done, P m by
    intro m hm
    exact hbehind _ [] (List.append_nil _).symm m (h.mem_flatten.2 hm)
  intro done
  induction done using List.reverseRecOn with
  | nil => exact fun _ _ m hm => by cases hm
  | append_singleton done m ih =>
    intro rest hms k hk
    rw [List.append_assoc, List.singleton_append] at hms
    rcases List.mem_append.1 hk with hk | hk
    · exact ih _ hms k hk
    · obtain rfl := List.mem_singleton.1 hk
      refine hstep k (h.mem_flatten.1 (by simp [hms])) fun d hd => ih _ hms d ?_
      exact h.mem_behind hms (fun _ => h.not_reaches_ahead hms) (h.reaches_iff.2 hd)

theorem names_of_mapM (h : Made env units s) {ms : List ModuleName} {us : List ScheduledModule}
    (hus : ms.mapM s.find = .ok us) : names us = ms := by
  rw [mapM_eq_ok] at hus
  induction hus with
  | nil => rfl
  | cons hu _ ih => exact congrArg₂ List.cons (h.name_of_find _ _ hu) ih

end Made

end Schedule

end ModuleExports
