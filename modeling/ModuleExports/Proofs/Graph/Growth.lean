import Mathlib.Data.Finset.Card
import ModuleExports.Proofs.Build.Schedule
import ModuleExports.Proofs.Graph.Dependents

/-!
Graphs as they come about: by modules and dependencies that are added to the empty graph, in any
order and however often. Main statements: the modules are those that were added, each once and with
a number of its own, the edges are the dependencies that were added after both of their modules, and
an addition changes nothing exactly where it brings nothing new or a module is missing.
-/
namespace ModuleExports

namespace Growth
variable {steps : List Growth} {s : Growth} {a b m : ModuleName}

/-- The modules that are added, in the order of the steps. -/
def inserted (steps : List Growth) : List ModuleName :=
  steps.filterMap fun
    | .insert m => some m
    | .connect .. => none

/-- Some step adds the dependency of `a` on `b` after both modules were added. -/
def Connects (steps : List Growth) (a b : ModuleName) : Prop :=
  ∃ before after, steps = before ++ .connect a b :: after ∧ .insert a ∈ before ∧ .insert b ∈ before

theorem mem_inserted : m ∈ inserted steps ↔ .insert m ∈ steps := by
  rw [inserted, List.mem_filterMap]
  constructor
  · rintro ⟨s, hs, hm⟩
    cases s with
    | insert n =>
      obtain rfl := Option.some.inj hm
      exact hs
    | connect => cases hm
  · exact fun h => ⟨.insert m, h, rfl⟩

theorem inserted_concat_insert : inserted (steps ++ [.insert m]) = inserted steps ++ [m] := by
  simp [inserted]

theorem inserted_concat_connect : inserted (steps ++ [.connect a b]) = inserted steps := by
  simp [inserted]

/-- The last step connects two modules if it says so and both were added before. -/
theorem connects_concat : Connects (steps ++ [s]) a b ↔
    Connects steps a b ∨ s = .connect a b ∧ .insert a ∈ steps ∧ .insert b ∈ steps := by
  constructor
  · rintro ⟨before, after, h, ha, hb⟩
    -- The step that connects the modules is the last one, or the last one comes after it.
    rcases List.eq_nil_or_concat after with rfl | ⟨after, t, rfl⟩
    · obtain ⟨rfl, hs⟩ := List.append_inj' h rfl
      exact .inr ⟨List.singleton_inj.1 hs, ha, hb⟩
    · rw [List.concat_eq_append, ← List.cons_append, ← List.append_assoc] at h
      exact .inl ⟨before, after, (List.append_inj' h rfl).1, ha, hb⟩
  · rintro (⟨before, after, rfl, ha, hb⟩ | ⟨rfl, ha, hb⟩)
    · exact ⟨before, after ++ [s], by simp, ha, hb⟩
    · exact ⟨steps, [], rfl, ha, hb⟩

end Growth

namespace DependencyGraph
variable {g : DependencyGraph} {steps : List Growth} {s : Growth} {a b d m : ModuleName} {i : Nat}

theorem grown_concat : grown (steps ++ [s]) = (grown steps).grow s := by
  simp [grown]

theorem insert_of_mem (h : m ∈ g.modules) : g.insert m = g := dif_pos h

theorem modules_insert_of_notMem (h : m ∉ g.modules) : (g.insert m).modules = g.modules ++ [m] := by
  rw [insert, dif_neg h]

theorem edges_insert : (g.insert m).edges = g.edges := by
  unfold insert
  split <;> rfl

/-- A module is added in vain exactly where it is there already. -/
theorem insert_eq_self_iff : g.insert m = g ↔ m ∈ g.modules := by
  refine ⟨fun h => ?_, insert_of_mem⟩
  by_contra hm
  have hlen := congrArg (·.modules.length) h
  simp [modules_insert_of_notMem hm] at hlen

theorem connect_of_mem (h : (m, d) ∈ g.edges) : g.connect m d = g :=
  dif_neg fun hnew => hnew.2.2 h

theorem connect_of_notMem (h : m ∉ g.modules ∨ d ∉ g.modules) : g.connect m d = g :=
  dif_neg fun hnew => h.elim (· hnew.1) (· hnew.2.1)

theorem edges_connect (hm : m ∈ g.modules) (hd : d ∈ g.modules) (h : (m, d) ∉ g.edges) :
    (g.connect m d).edges = g.edges ++ [(m, d)] := by
  rw [connect, dif_pos ⟨hm, hd, h⟩]

/-- A dependency is added in vain exactly where a module is missing or it is there already. -/
theorem connect_eq_self_iff :
    g.connect m d = g ↔ m ∉ g.modules ∨ d ∉ g.modules ∨ (m, d) ∈ g.edges := by
  constructor
  · intro h
    by_contra! hnew
    have hlen := congrArg (·.edges.length) h
    simp [edges_connect hnew.1 hnew.2.1 hnew.2.2] at hlen
  · rintro (hm | hd | he)
    · exact connect_of_notMem (.inl hm)
    · exact connect_of_notMem (.inr hd)
    · exact connect_of_mem he

/-- The modules of a graph are numbered in the order of their adding. -/
theorem index?_eq_some_iff : g.index? m = some i ↔ g.modules[i]? = some m := by
  rw [index?, List.idxOf?_eq_some_iff, List.getElem?_eq_some_iff]
  refine exists_congr fun hi => and_iff_left_of_imp fun hm j hj hjm => ?_
  have := (g.modules_nodup.getElem_inj_iff).1 (hjm.trans hm.symm)
  omega

theorem exists_index?_iff : (∃ i, g.index? m = some i) ↔ m ∈ g.modules := by
  simp only [index?_eq_some_iff, List.mem_iff_getElem?]

/-- Each module once, in the order in which they were added first. -/
theorem modules_grown : (grown steps).modules = (Growth.inserted steps).eraseDups := by
  induction steps using List.reverseRecOn with
  | nil => rfl
  | append_singleton steps s ih =>
    rw [grown_concat]
    cases s with
    | insert m =>
      rw [Growth.inserted_concat_insert, List.eraseDups_append, ← ih, grow]
      by_cases hm : m ∈ (grown steps).modules
      · have hknown : m ∈ Growth.inserted steps := by rwa [ih, List.mem_eraseDups] at hm
        simp [insert_of_mem hm, List.removeAll, hknown]
      · have hnew : m ∉ Growth.inserted steps := by rwa [ih, List.mem_eraseDups] at hm
        simp [modules_insert_of_notMem hm, List.removeAll, hnew, List.eraseDups_cons]
    | connect a b => rw [Growth.inserted_concat_connect, grow, modules_connect, ih]

theorem mem_modules_grown : m ∈ (grown steps).modules ↔ .insert m ∈ steps := by
  rw [modules_grown, List.mem_eraseDups, Growth.mem_inserted]

/-- An addition adds at most the dependency that it names, and only between modules of the graph. -/
theorem mem_edges_grow : (a, b) ∈ (g.grow s).edges ↔
    (a, b) ∈ g.edges ∨ s = .connect a b ∧ a ∈ g.modules ∧ b ∈ g.modules := by
  cases s with
  | insert m => simp [grow, edges_insert]
  | connect m d =>
    rw [grow, mem_edges_connect]
    grind

theorem mem_edges_grown : (a, b) ∈ (grown steps).edges ↔ Growth.Connects steps a b := by
  induction steps using List.reverseRecOn with
  | nil => simp [grown, Growth.Connects, EmptyCollection.emptyCollection]
  | append_singleton steps s ih =>
    rw [grown_concat, mem_edges_grow, ih, Growth.connects_concat, mem_modules_grown,
      mem_modules_grown]

/-- What a graph shows of the additions that it comes from. -/
structure GrownBy (g : DependencyGraph) (steps : List Growth) : Prop where
  /-- Each module once, in the order in which they were added first. -/
  modules_eq : g.modules = (Growth.inserted steps).eraseDups
  contains_iff : ∀ m, g.contains m ↔ .insert m ∈ steps
  size_eq : g.size = (Growth.inserted steps).toFinset.card
  exists_index?_iff : ∀ m, (∃ i, g.index? m = some i) ↔ .insert m ∈ steps
  index?_iff : ∀ m i, g.index? m = some i ↔ g.modules[i]? = some m
  edges_nodup : g.edges.Nodup
  mem_edges : ∀ a b, (a, b) ∈ g.edges ↔ Growth.Connects steps a b
  mem_dependencies : ∀ a b, b ∈ g.dependencies a ↔ (a, b) ∈ g.edges
  mem_dependents : ∀ a b, a ∈ g.dependents b ↔ (a, b) ∈ g.edges
  dependencies_increasing : ∀ a, (g.dependencies a).Pairwise fun b c => compare b c = .lt
  dependents_increasing : ∀ a, (g.dependents a).Pairwise fun b c => compare b c = .lt
  insert_eq_self_iff : ∀ m, g.insert m = g ↔ .insert m ∈ steps
  connect_eq_self_iff : ∀ a b, g.connect a b = g ↔
    .insert a ∉ steps ∨ .insert b ∉ steps ∨ (a, b) ∈ g.edges

theorem size_grown : (grown steps).size = (Growth.inserted steps).toFinset.card := by
  rw [size, ← List.toFinset_card_of_nodup (grown steps).modules_nodup]
  refine congrArg _ (Finset.ext fun m => ?_)
  rw [List.mem_toFinset, List.mem_toFinset, mem_modules_grown, Growth.mem_inserted]

theorem grownBy_grown : (grown steps).GrownBy steps where
  modules_eq := modules_grown
  contains_iff _ := List.contains_iff_mem.trans mem_modules_grown
  size_eq := size_grown
  exists_index?_iff _ := exists_index?_iff.trans mem_modules_grown
  index?_iff _ _ := index?_eq_some_iff
  edges_nodup := (grown steps).edges_nodup
  mem_edges _ _ := mem_edges_grown
  mem_dependencies _ _ := mem_dependencies
  mem_dependents _ _ := mem_dependents
  dependencies_increasing _ := ModuleName.pairwise_distinct _
  dependents_increasing _ := ModuleName.pairwise_distinct _
  insert_eq_self_iff _ := insert_eq_self_iff.trans mem_modules_grown
  connect_eq_self_iff _ _ := by
    rw [connect_eq_self_iff, mem_modules_grown, mem_modules_grown]

/-- A dependency that is added before one of its modules is lost. -/
example : (grown [.insert ⟨"A"⟩, .connect ⟨"A"⟩ ⟨"B"⟩, .insert ⟨"B"⟩, .insert ⟨"A"⟩,
    .connect ⟨"B"⟩ ⟨"A"⟩]).edges = [(⟨"B"⟩, ⟨"A"⟩)] := by decide

end DependencyGraph

end ModuleExports
