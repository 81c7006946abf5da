import ModuleExports.Proofs.Graph.Depths

/-!
All that depends on a module. Main statements: on every graph, with cycles or without, it is what
reaches the module through one edge or more, itself left out; a search from a module to its
dependents that keeps a queue visits each of them once; and without cycles all of them stand in a
later layer.
-/
namespace ModuleExports

namespace Search
variable {α : Type} [DecidableEq α] {s : Frontier α} {ws : List α} {v w : α}

theorem Frontier.mem_queue_meet :
    w ∈ (s.meet v).queue ↔ w ∈ s.queue ∨ w = v ∧ w ∈ s.unseen := by
  unfold meet
  grind

/-- The queue grows by those of the nodes met that were unseen. -/
theorem Frontier.mem_queue_foldl_meet :
    w ∈ (ws.foldl meet s).queue ↔ w ∈ s.queue ∨ w ∈ ws ∧ w ∈ s.unseen := by
  induction ws generalizing s with
  | nil => simp
  | cons v ws ih =>
    have hunseen : w ∈ (s.meet v).unseen → w ∈ s.unseen := by
      unfold meet
      grind
    have hnodes : w ∈ (s.meet v).nodes ↔ w ∈ s.nodes := nodes_meet.mem_iff
    simp only [nodes, List.mem_append, mem_queue_meet] at hnodes
    rw [List.foldl_cons, ih, mem_queue_meet, List.mem_cons]
    grind

variable {next : α → List α}

theorem mem_breadthFirst_of_queue (h : w ∈ s.queue) : w ∈ breadthFirst next s := by
  fun_induction breadthFirst next s with
  | case1 => cases h
  | case2 v rest unseen ih =>
    rcases List.mem_cons.1 h with rfl | h
    · exact List.mem_cons_self
    · exact List.mem_cons_of_mem v (ih (Frontier.mem_queue_foldl_meet.2 (.inl h)))

/-- What a visited node leads to is visited, unless the search had come across it before. -/
theorem mem_breadthFirst_of_next (hv : v ∈ breadthFirst next s) (hw : w ∈ next v)
    (hu : w ∈ s.unseen) : w ∈ breadthFirst next s := by
  fun_induction breadthFirst next s with
  | case1 => cases hv
  | case2 x rest unseen ih =>
    refine List.mem_cons_of_mem x ?_
    rcases List.mem_cons.1 hv with rfl | hv
    · exact mem_breadthFirst_of_queue (Frontier.mem_queue_foldl_meet.2 (.inr ⟨hw, hu⟩))
    · -- The visit of `x` loses no node: it only moves some from the unseen ones to the queue.
      have hnodes : w ∈ ((next x).foldl Frontier.meet ⟨rest, unseen⟩).nodes :=
        Frontier.nodes_foldl_meet.mem_iff.2 (List.mem_append_right rest hu)
      rcases List.mem_append.1 hnodes with hq | hu
      · exact mem_breadthFirst_of_queue hq
      · exact ih hv hu

theorem mem_nodes_of_breadthFirst (h : w ∈ breadthFirst next s) : w ∈ s.nodes := by
  fun_induction breadthFirst next s with
  | case1 => cases h
  | case2 v rest unseen ih =>
    rcases List.mem_cons.1 h with rfl | h
    · exact List.mem_cons_self
    · exact List.mem_cons_of_mem v (Frontier.nodes_foldl_meet.mem_iff.1 (ih h))

theorem nodup_breadthFirst (h : s.nodes.Nodup) : (breadthFirst next s).Nodup := by
  fun_induction breadthFirst next s with
  | case1 => exact List.nodup_nil
  | case2 v rest unseen ih =>
    obtain ⟨hv, hrest⟩ := List.nodup_cons.1 h
    refine List.nodup_cons.2 ⟨fun hmem => hv ?_, ih (Frontier.nodes_foldl_meet.nodup_iff.2 hrest)⟩
    exact Frontier.nodes_foldl_meet.mem_iff.1 (mem_nodes_of_breadthFirst hmem)

/-- Whatever is visited, some node of the queue leads to. -/
theorem exists_queue_of_mem_breadthFirst (h : w ∈ breadthFirst next s) :
    ∃ v ∈ s.queue, Relation.ReflTransGen (fun v w => w ∈ next v) v w := by
  fun_induction breadthFirst next s with
  | case1 => cases h
  | case2 v rest unseen ih =>
    rcases List.mem_cons.1 h with rfl | h
    · exact ⟨w, List.mem_cons_self, .refl⟩
    · obtain ⟨x, hx, hxw⟩ := ih h
      rcases Frontier.mem_queue_foldl_meet.1 hx with hx | ⟨hx, -⟩
      · exact ⟨x, List.mem_cons_of_mem v hx, hxw⟩
      · exact ⟨v, List.mem_cons_self, hxw.head hx⟩

/-- A search that knows all nodes ahead visits exactly what its queue leads to. -/
theorem mem_breadthFirst (hn : ∀ v w, w ∈ next v → w ∈ s.nodes) : w ∈ breadthFirst next s ↔
    ∃ v ∈ s.queue, Relation.ReflTransGen (fun v w => w ∈ next v) v w := by
  refine ⟨exists_queue_of_mem_breadthFirst, ?_⟩
  rintro ⟨v, hv, h⟩
  induction h with
  | refl => exact mem_breadthFirst_of_queue hv
  | tail _ hw ih =>
    rcases List.mem_append.1 (hn _ _ hw) with hq | hu
    · exact mem_breadthFirst_of_queue hq
    · exact mem_breadthFirst_of_next ih hw hu

end Search

namespace DependencyGraph
variable {g : DependencyGraph} {ls : List (List ModuleName)} {a b d m : ModuleName}

theorem mem_dependencies : d ∈ g.dependencies m ↔ (m, d) ∈ g.edges := by
  rw [dependencies, ModuleName.mem_distinct, mem_successors]

theorem mem_dependents : m ∈ g.dependents d ↔ (m, d) ∈ g.edges := by
  rw [dependents, ModuleName.mem_distinct, mem_predecessors]

theorem allDependents_of_notMem (h : m ∉ g.modules) : g.allDependents m = ∅ := by
  refine Std.ExtTreeSet.ext_mem fun a => iff_of_false (fun ha => ?_) Std.ExtTreeSet.not_mem_empty
  exact h (mem_allDependents.1 ha).2.mem_right

/-- Another module is among the dependents of `m` through its first edge: either this leads to `m`,
or to another one of them. -/
theorem mem_allDependents_iff_direct (h : a ≠ m) : a ∈ g.allDependents m ↔
    a ∈ g.dependents m ∨ ∃ d ∈ g.dependencies a, d ≠ m ∧ d ∈ g.allDependents m := by
  simp only [mem_allDependents, mem_dependents, mem_dependencies]
  constructor
  · intro ⟨_, hr⟩
    obtain ⟨d, had, hdm⟩ := Relation.TransGen.head'_iff.1 hr
    by_cases hd : d = m
    · exact .inl (hd ▸ had)
    · have hdm := (Relation.reflTransGen_iff_eq_or_transGen.1 hdm).resolve_left (Ne.symm hd)
      exact .inr ⟨d, had, hd, hd, hdm⟩
  · rintro (ham | ⟨d, had, -, -, hdm⟩)
    · exact ⟨h, .single ham⟩
    · exact ⟨h, .head had hdm⟩

/-- A module that reaches another one stands in a later layer, and each of them in one layer. -/
theorem Leveled.exists_later (h : g.Leveled ls) (hr : g.Reaches a m) :
    ∃ i j, j < i ∧ (∀ k, InLayer ls k a ↔ k = i) ∧ ∀ k, InLayer ls k m ↔ k = j := by
  have hunique {b : ModuleName} {i : Nat} (hi : InLayer ls i b) (k : Nat) :
      InLayer ls k b ↔ k = i := by
    refine ⟨fun hk => ?_, fun hk => hk ▸ hi⟩
    exact ((h.inLayer_iff k b).1 hk).2.unique ((h.inLayer_iff i b).1 hi).2
  obtain ⟨i, hi⟩ := h.placed a hr.mem_left
  obtain ⟨j, hj⟩ := h.placed m hr.mem_right
  exact ⟨i, j, h.earlier i j a m hi hj hr, hunique hi, hunique hj⟩

theorem nodup_frontier : (g.frontier m).nodes.Nodup :=
  List.nodup_cons.2 ⟨g.modules_nodup.not_mem_erase, g.modules_nodup.erase m⟩

theorem mem_frontier (h : a ∈ g.modules) : a ∈ (g.frontier m).nodes := by
  by_cases ha : a = m
  · exact ha ▸ List.mem_cons_self
  · exact List.mem_cons_of_mem m ((List.mem_erase_of_ne ha).2 h)

/-- The other modules that the search visits are the dependents, whatever order it takes the direct
dependents of a module in. -/
theorem mem_allDependents_iff_breadthFirst {next : ModuleName → List ModuleName}
    (hnext : ∀ a b, a ∈ next b ↔ a ∈ g.dependents b) : a ∈ g.allDependents m ↔
      a ≠ m ∧ a ∈ Search.breadthFirst next (g.frontier m) := by
  have hnodes : ∀ v w, w ∈ next v → w ∈ (g.frontier m).nodes := fun v w hw =>
    mem_frontier (g.edges_mem _ (mem_dependents.1 ((hnext w v).1 hw))).1
  have hswap : Relation.TransGen (fun v w => w ∈ next v) m a ↔ g.Reaches a m := by
    simp only [hnext, mem_dependents]
    exact Relation.transGen_swap
  rw [mem_allDependents, Search.mem_breadthFirst hnodes, ← hswap]
  refine and_congr_right fun hne => ?_
  simp [frontier, Relation.reflTransGen_iff_eq_or_transGen, hne]

/-- The set `s` holds all that depends on `m`, and nothing else. -/
structure DependentSet (g : DependencyGraph) (m : ModuleName) (s : ModuleSet) : Prop where
  mem_iff : ∀ a, a ∈ s ↔ a ≠ m ∧ g.Reaches a m
  of_notMem : m ∉ g.modules → s = ∅
  direct : ∀ a, a ≠ m →
    (a ∈ s ↔ a ∈ g.dependents m ∨ ∃ d ∈ g.dependencies a, d ≠ m ∧ d ∈ s)
  later : (∀ a, ¬ g.Reaches a a) → ∃ ls, g.layers = .ok ls ∧ ∀ a ∈ s, ∃ i j, j < i ∧
    (∀ k, InLayer ls k a ↔ k = i) ∧ ∀ k, InLayer ls k m ↔ k = j
  /-- A search with a queue, with the direct dependents of a module in any order. -/
  visited : ∀ next : ModuleName → List ModuleName, (∀ a b, a ∈ next b ↔ a ∈ g.dependents b) →
    (Search.breadthFirst next (g.frontier m)).Nodup ∧
      ∀ a, a ∈ s ↔ a ≠ m ∧ a ∈ Search.breadthFirst next (g.frontier m)

theorem dependentSet_allDependents (g : DependencyGraph) (m : ModuleName) :
    g.DependentSet m (g.allDependents m) where
  mem_iff _ := mem_allDependents
  of_notMem := allDependents_of_notMem
  direct _ := mem_allDependents_iff_direct
  later h := by
    obtain ⟨ls, hls⟩ := exists_layers_iff.2 h
    refine ⟨ls, hls, fun a ha => ?_⟩
    exact (leveled_of_layers hls).exists_later (mem_allDependents.1 ha).2
  visited _ hnext :=
    ⟨Search.nodup_breadthFirst nodup_frontier, fun _ => mem_allDependents_iff_breadthFirst hnext⟩

/-- `A` depends on itself and on `B`, which depends on it as well, and `C` depends on `B`. -/
def sampleLoop : DependencyGraph where
  modules := [⟨"C"⟩, ⟨"B"⟩, ⟨"A"⟩]
  edges := [(⟨"A"⟩, ⟨"A"⟩), (⟨"A"⟩, ⟨"B"⟩), (⟨"C"⟩, ⟨"B"⟩), (⟨"B"⟩, ⟨"A"⟩)]
  modules_nodup := by decide
  edges_nodup := by decide
  edges_mem := by decide

theorem dependentSet_allDependents_samples :
    (∀ a, a ∈ sampleLoop.allDependents ⟨"A"⟩ ↔ a = ⟨"B"⟩ ∨ a = ⟨"C"⟩) ∧
      sampleLoop.allDependents ⟨"D"⟩ = ∅ ∧
      ∃ ls, sampleShortcut.layers = .ok ls ∧ ∃ i j, j < i ∧
        (∀ k, InLayer ls k ⟨"A"⟩ ↔ k = i) ∧ ∀ k, InLayer ls k ⟨"C"⟩ ↔ k = j := by
  have hloop := dependentSet_allDependents sampleLoop ⟨"A"⟩
  have hvisits : Search.breadthFirst sampleLoop.dependents (sampleLoop.frontier ⟨"A"⟩) =
      [⟨"A"⟩, ⟨"B"⟩, ⟨"C"⟩] := by cbv
  refine ⟨fun a => ?_, (dependentSet_allDependents sampleLoop ⟨"D"⟩).of_notMem (by decide), ?_⟩
  · rw [(hloop.visited sampleLoop.dependents fun _ _ => .rfl).2, hvisits]
    grind
  · have horder : sampleShortcut.Topological [⟨"A"⟩, ⟨"D"⟩, ⟨"B"⟩, ⟨"C"⟩] :=
      ⟨by decide, by decide, by decide⟩
    have hshortcut := dependentSet_allDependents sampleShortcut ⟨"C"⟩
    obtain ⟨ls, hls, hlater⟩ := hshortcut.later fun _ => horder.not_reaches_self
    have hdirect : (⟨"A"⟩ : ModuleName) ∈ sampleShortcut.dependents ⟨"C"⟩ :=
      mem_dependents.2 (by decide)
    exact ⟨ls, hls, hlater _ ((hshortcut.direct _ (by decide)).2 (.inl hdirect))⟩

end DependencyGraph

end ModuleExports
