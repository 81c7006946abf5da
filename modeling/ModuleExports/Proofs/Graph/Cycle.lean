import Mathlib
import ModuleExports.Proofs.Graph.Levels

/-!
The cycle that is reported where a graph has no layers. Main statements: it is one strongly
connected component, listed in increasing order, with nothing that only leads to it or that it only
leads to, and so is the first component with a cycle in any list of the components.
-/
namespace ModuleExports

namespace DependencyGraph
variable {g : DependencyGraph} {a b m : ModuleName} {e : Failure}

/-- The modules of a cycle and all that lie on a cycle with them: those that one of them reaches and
is reached from, itself included. -/
structure CyclicComponent (g : DependencyGraph) (ms : List ModuleName) : Prop where
  ne_nil : ms ≠ []
  increasing : ms.Pairwise fun a b => compare a b = .lt
  subset : ms ⊆ g.modules
  mem_iff : ∀ a ∈ ms, ∀ b, b ∈ ms ↔ g.Reaches a b ∧ g.Reaches b a

theorem mem_reachable : b ∈ g.reachable a ↔ g.Reaches a b := by
  have hn : ∀ v w, w ∈ g.successors v → w ∈ g.modules := fun v w hw =>
    (g.edges_mem _ (mem_successors.1 hw)).2
  have hreaches : Relation.TransGen (fun v w => w ∈ g.successors v) a b ↔ g.Reaches a b := by
    simp only [mem_successors, Reaches]
  rw [← hreaches, Relation.TransGen.head'_iff]
  constructor
  · intro h
    exact Search.reflTransGen_of_mem_finishing h
  · rintro ⟨c, hc, hcb⟩
    exact Search.mem_finishing_of_reflTransGen hn hc (hn a c hc) hcb

theorem onCycle_iff : g.onCycle m ↔ g.Reaches m m := by
  rw [onCycle, List.contains_iff_mem, mem_reachable]

theorem mem_component : b ∈ g.component a ↔ g.Reaches a b ∧ g.Reaches b a := by
  rw [component, List.mem_filter, mem_reachable, List.contains_iff_mem, mem_reachable]

/-- Where some module is on a cycle, the one that is searched for is found. -/
theorem exists_cycle_eq (h : g.Reaches m m) :
    ∃ a, g.Reaches a a ∧ g.cycle = ModuleName.distinct (g.component a) := by
  unfold cycle
  split
  next a ha => exact ⟨a, onCycle_iff.1 (List.find?_some ha), rfl⟩
  next hnone =>
    have hleft : m ∈ Search.finishing g.predecessors g.modules g.modules :=
      Search.mem_run_of_task (.inr ⟨List.mem_map_of_mem h.mem_left, h.mem_left⟩)
    exact absurd (onCycle_iff.2 h) (List.find?_eq_none.1 hnone m (List.mem_reverse.2 hleft))

theorem cyclicComponent_distinct (h : g.Reaches a a) :
    g.CyclicComponent (ModuleName.distinct (g.component a)) where
  ne_nil := List.ne_nil_of_mem (ModuleName.mem_distinct.2 (mem_component.2 ⟨h, h⟩))
  increasing := ModuleName.pairwise_distinct _
  subset b hb := (mem_component.1 (ModuleName.mem_distinct.1 hb)).1.mem_right
  mem_iff b hb c := by
    obtain ⟨hab, hba⟩ := mem_component.1 (ModuleName.mem_distinct.1 hb)
    rw [ModuleName.mem_distinct, mem_component]
    constructor
    · intro ⟨hac, hca⟩
      exact ⟨hba.trans hac, hca.trans hab⟩
    · intro ⟨hbc, hcb⟩
      exact ⟨hab.trans hbc, hcb.trans hba⟩

/-- The strongly connected components of the graph: each of its modules in one of them, together
with those that it reaches and is reached from. -/
structure Components (g : DependencyGraph) (parts : List (List ModuleName)) : Prop where
  perm : parts.flatten.Perm g.modules
  mem_iff : ∀ l ∈ parts, ∀ a ∈ l, ∀ b, b ∈ l ↔ a = b ∨ g.Reaches a b ∧ g.Reaches b a

namespace Components
variable {parts : List (List ModuleName)} {l : List ModuleName}

theorem nodup (h : g.Components parts) (hl : l ∈ parts) : l.Nodup :=
  (List.nodup_flatten.1 (h.perm.nodup_iff.2 g.modules_nodup)).1 l hl

theorem isCyclic_iff (h : g.Components parts) (hl : l ∈ parts) :
    g.isCyclic l ↔ ∃ m ∈ l, g.Reaches m m := by
  have htwo : 1 < l.length ↔ ∃ a ∈ l, ∃ b ∈ l, a ≠ b := by
    rw [← List.toFinset_card_of_nodup (h.nodup hl), Finset.one_lt_card]
    simp only [List.mem_toFinset]
  simp only [isCyclic, Bool.or_eq_true, decide_eq_true_eq, List.any_eq_true, List.contains_iff_mem,
    htwo]
  constructor
  · rintro (⟨a, ha, b, hb, hab⟩ | ⟨m, hm, hmm⟩)
    · obtain ⟨hreach, hback⟩ := ((h.mem_iff l hl a ha b).1 hb).resolve_left hab
      exact ⟨a, ha, hreach.trans hback⟩
    · exact ⟨m, hm, .single hmm⟩
  · intro ⟨m, hm, hmm⟩
    -- The cycle leads back to `m` at once or through another module, which is in the component.
    obtain ⟨d, hd, hback⟩ := Relation.TransGen.head'_iff.1 hmm
    rcases Relation.reflTransGen_iff_eq_or_transGen.1 hback with rfl | hback
    · exact .inr ⟨_, hm, hd⟩
    · by_cases hmd : m = d
      · exact .inr ⟨m, hm, hmd ▸ hd⟩
      · exact .inl ⟨m, hm, d, (h.mem_iff l hl m hm d).2 (.inr ⟨.single hd, hback⟩), hmd⟩

/-- A component with a cycle is one whose modules all reach each other and themselves. -/
theorem cyclicComponent_inOrder (h : g.Components parts) (hl : l ∈ parts) (hm : m ∈ l)
    (hmm : g.Reaches m m) : g.CyclicComponent (ModuleName.inOrder l) := by
  have hmem (b : ModuleName) : b ∈ ModuleName.inOrder l ↔ b ∈ l := by simp [ModuleName.inOrder]
  have hreach (a : ModuleName) (ha : a ∈ l) : g.Reaches a a := by
    rcases (h.mem_iff l hl a ha m).1 hm with rfl | ⟨ham, hma⟩
    · exact hmm
    · exact ham.trans hma
  refine ⟨List.ne_nil_of_mem ((hmem m).2 hm), ModuleName.increasing_inOrder (h.nodup hl),
    fun b hb => ?_, fun a ha b => ?_⟩
  · exact h.perm.mem_iff.1 (List.mem_flatten.2 ⟨l, hl, (hmem b).1 hb⟩)
  · rw [hmem] at ha ⊢
    rw [h.mem_iff l hl a ha]
    refine ⟨?_, .inr⟩
    rintro (rfl | hab)
    · exact ⟨hreach a ha, hreach a ha⟩
    · exact hab

/-- Where some module is on a cycle, a component with a cycle is found. -/
theorem cyclicComponent_firstCyclic (h : g.Components parts) (hm : g.Reaches m m) :
    g.CyclicComponent (g.firstCyclic parts) := by
  obtain ⟨l, hl, hml⟩ := List.mem_flatten.1 (h.perm.mem_iff.2 hm.mem_left)
  have hcyclic := (h.isCyclic_iff hl).2 ⟨m, hml, hm⟩
  unfold firstCyclic
  cases hfound : parts.find? g.isCyclic with
  | none => exact absurd hcyclic (List.find?_eq_none.1 hfound l hl)
  | some k =>
    have hk := List.mem_of_find?_eq_some hfound
    obtain ⟨a, ha, haa⟩ := (h.isCyclic_iff hk).1 (List.find?_some hfound)
    exact h.cyclicComponent_inOrder hk ha haa

end Components

/-- A graph without layers fails with the modules of one strongly connected component that holds a
cycle, and any list of its components has such a one. -/
theorem cyclicComponent_of_layers (h : g.layers = .error e) :
    (∃ ms, e = .circularDependency ms ∧ g.CyclicComponent ms) ∧
      ∀ parts, g.Components parts → g.CyclicComponent (g.firstCyclic parts) := by
  have hcyclic : ¬ ∀ m, ¬ g.Reaches m m := by
    rw [← exists_layers_iff, h]
    rintro ⟨ls, hls⟩
    cases hls
  simp only [not_forall, not_not] at hcyclic
  obtain ⟨m, hm⟩ := hcyclic
  obtain ⟨a, ha, hcycle⟩ := exists_cycle_eq hm
  refine ⟨⟨g.cycle, failsOnly_peel e h, ?_⟩, fun parts hparts => ?_⟩
  · rw [hcycle]
    exact cyclicComponent_distinct ha
  · exact hparts.cyclicComponent_firstCyclic hm

/-- Of the two cycles, that of `E` alone leads to that of `B` and `C`, which leads on to `F`. -/
def sampleTangled : DependencyGraph where
  modules := [⟨"A"⟩, ⟨"C"⟩, ⟨"B"⟩, ⟨"E"⟩, ⟨"F"⟩]
  edges := [(⟨"A"⟩, ⟨"B"⟩), (⟨"B"⟩, ⟨"C"⟩), (⟨"C"⟩, ⟨"B"⟩), (⟨"E"⟩, ⟨"E"⟩), (⟨"E"⟩, ⟨"B"⟩),
    (⟨"C"⟩, ⟨"F"⟩)]
  modules_nodup := by decide
  edges_nodup := by decide
  edges_mem := by decide

theorem components_sampleTangled :
    sampleTangled.Components [[⟨"F"⟩], [⟨"E"⟩], [⟨"C"⟩, ⟨"B"⟩], [⟨"A"⟩]] := by
  have ha : sampleTangled.component ⟨"A"⟩ = [] := by cbv
  have hb : sampleTangled.component ⟨"B"⟩ = [⟨"B"⟩, ⟨"C"⟩] := by cbv
  have hc : sampleTangled.component ⟨"C"⟩ = [⟨"C"⟩, ⟨"B"⟩] := by cbv
  have he : sampleTangled.component ⟨"E"⟩ = [⟨"E"⟩] := by cbv
  have hf : sampleTangled.component ⟨"F"⟩ = [] := by cbv
  refine ⟨by decide, fun l hl a hal b => ?_⟩
  rw [← mem_component]
  fin_cases hl <;> fin_cases hal <;> grind

theorem cyclicComponent_of_layers_sampleTangled :
    sampleTangled.layers = .error (.circularDependency [⟨"B"⟩, ⟨"C"⟩]) ∧
      sampleTangled.CyclicComponent [⟨"B"⟩, ⟨"C"⟩] ∧
      sampleTangled.CyclicComponent
        (sampleTangled.firstCyclic [[⟨"F"⟩], [⟨"E"⟩], [⟨"C"⟩, ⟨"B"⟩], [⟨"A"⟩]]) := by
  have h : sampleTangled.layers = .error (.circularDependency [⟨"B"⟩, ⟨"C"⟩]) := by cbv
  obtain ⟨⟨ms, hms, hc⟩, hparts⟩ := cyclicComponent_of_layers h
  obtain rfl := Failure.circularDependency.inj hms
  exact ⟨h, hc, hparts _ components_sampleTangled⟩

end DependencyGraph

end ModuleExports
