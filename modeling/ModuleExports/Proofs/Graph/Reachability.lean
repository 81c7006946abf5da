import Mathlib.Logic.Relation
import ModuleExports.Graph.Basic

/-!
Dependence through one edge or more. Main statement: the dependents of a module that a search
collects are exactly the other modules that reach it.
-/
namespace ModuleExports

namespace Search
variable {α : Type} [DecidableEq α] {next : α → List α} {nodes roots : List α}

/-- A search finds what its roots lead to, through nodes that lead to nodes only. -/
theorem mem_finishing_of_reflTransGen (hn : ∀ v w, w ∈ next v → w ∈ nodes) {v w : α}
    (hv : v ∈ roots) (hm : v ∈ nodes) (h : Relation.ReflTransGen (fun v w => w ∈ next v) v w) :
    w ∈ finishing next nodes roots := by
  induction h with
  | refl => exact mem_run_of_task (.inr ⟨List.mem_map_of_mem hv, hm⟩)
  | tail _ hw ih => exact mem_run_of_next ih (by simp) hw (hn _ _ hw)

theorem reflTransGen_of_mem_finishing {w : α} (h : w ∈ finishing next nodes roots) :
    ∃ v ∈ roots, Relation.ReflTransGen (fun v w => w ∈ next v) v w := by
  refine forall_mem_run (P := fun w => ∃ v ∈ roots, Relation.ReflTransGen _ v w) ?_ ?_ w h
  · rintro v w ⟨r, hr, hv⟩ hw
    exact ⟨r, hr, hv.tail hw⟩
  · intro v hv
    exact ⟨v, by simpa using hv, .refl⟩

end Search

namespace DependencyGraph
variable {g : DependencyGraph} {a b m : ModuleName}

/-- The module `a` depends on `b`, directly or through others. -/
def Reaches (g : DependencyGraph) : ModuleName → ModuleName → Prop :=
  Relation.TransGen fun a b => (a, b) ∈ g.edges

theorem Reaches.mem_left (h : g.Reaches a b) : a ∈ g.modules := by
  obtain ⟨c, hc, -⟩ := Relation.TransGen.head'_iff.1 h
  exact (g.edges_mem _ hc).1

theorem Reaches.mem_right (h : g.Reaches a b) : b ∈ g.modules := by
  obtain ⟨c, -, hc⟩ := Relation.TransGen.tail'_iff.1 h
  exact (g.edges_mem _ hc).2

/-- All dependents of a module are the other modules that reach it. -/
theorem mem_allDependents : a ∈ g.allDependents m ↔ a ≠ m ∧ g.Reaches a m := by
  have hn : ∀ v w, w ∈ g.predecessors v → w ∈ g.modules := fun v w hw =>
    (g.edges_mem _ (mem_predecessors.1 hw)).1
  have hswap : Relation.TransGen (fun v w => w ∈ g.predecessors v) m a ↔ g.Reaches a m := by
    simp only [mem_predecessors]
    exact Relation.transGen_swap
  rw [allDependents, Std.ExtTreeSet.mem_erase, Std.ExtTreeSet.mem_ofList, List.contains_iff_mem]
  simp only [ne_eq, Std.compare_eq_iff_eq, eq_comm (a := m)]
  refine and_congr_right fun hne => ⟨fun h => ?_, fun h => ?_⟩
  · obtain ⟨v, hv, hr⟩ := Search.reflTransGen_of_mem_finishing h
    obtain rfl := List.mem_singleton.1 hv
    exact hswap.1 ((Relation.reflTransGen_iff_eq_or_transGen.1 hr).resolve_left hne)
  · exact Search.mem_finishing_of_reflTransGen hn (List.mem_singleton_self m) h.mem_right
      (hswap.2 h).to_reflTransGen

end DependencyGraph

end ModuleExports
