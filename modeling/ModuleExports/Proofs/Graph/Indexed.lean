import ModuleExports.Graph.Indexed
import ModuleExports.Proofs.Graph.Growth

/-!
The index of a graph and its numbered nodes. Main statements: additions keep the two in step, so
that each name that was added has one node and each node is found by its own name, and the graph
shows the same as the one that is kept by names alone.
-/
namespace ModuleExports

namespace ModuleName

theorem inOrder_eq_distinct {ms : List ModuleName} (h : ms.Nodup) : inOrder ms = distinct ms :=
  eq_of_increasing (increasing_inOrder h) (pairwise_distinct ms) fun m => by simp [inOrder]

end ModuleName

namespace DependencyGraph
variable {g : DependencyGraph} {a b d m : ModuleName} {i : Nat}

/-- The number of a module of the graph. -/
def number (g : DependencyGraph) (m : ModuleName) : Nat := g.modules.idxOf m

theorem getElem?_number (h : m ∈ g.modules) : g.modules[g.number m]? = some m :=
  List.getElem?_idxOf h

theorem index?_of_mem (h : m ∈ g.modules) : g.index? m = some (g.number m) :=
  index?_eq_some_iff.2 (getElem?_number h)

theorem index?_of_notMem (h : m ∉ g.modules) : g.index? m = none :=
  List.idxOf?_eq_none_iff.2 h

theorem number_inj (h : a ∈ g.modules) : g.number a = g.number m ↔ a = m := List.idxOf_inj h

/-- The modules of a graph keep their numbers. -/
theorem number_insert (h : a ∈ g.modules) : (g.insert m).number a = g.number a := by
  by_cases hm : m ∈ g.modules
  · rw [insert_of_mem hm]
  · rw [number, modules_insert_of_notMem hm, List.idxOf_append_of_mem h, number]

theorem index?_insert (hm : m ∉ g.modules) :
    (g.insert m).index? a = if m = a then some g.modules.length else g.index? a := by
  ext i
  rw [index?_eq_some_iff, modules_insert_of_notMem hm]
  split
  next h =>
    subst h
    grind
  next h =>
    rw [index?_eq_some_iff]
    grind

/-- The edges of a graph between the numbers of its modules. -/
def numberedEdges (g : DependencyGraph) : List (Nat × Nat) :=
  g.edges.map fun e => e.map g.number g.number

theorem mem_numberedEdges (ha : a ∈ g.modules) (hb : b ∈ g.modules) :
    (g.number a, g.number b) ∈ g.numberedEdges ↔ (a, b) ∈ g.edges := by
  rw [numberedEdges, List.mem_map]
  constructor
  · rintro ⟨⟨c, d⟩, he, hnumbers⟩
    obtain ⟨hc, hd⟩ := Prod.mk.inj hnumbers
    obtain rfl := (number_inj ha).1 hc.symm
    obtain rfl := (number_inj hb).1 hd.symm
    exact he
  · exact fun he => ⟨(a, b), he, rfl⟩

theorem numberedEdges_insert : (g.insert m).numberedEdges = g.numberedEdges := by
  rw [numberedEdges, edges_insert, numberedEdges]
  refine List.map_congr_left fun e he => ?_
  obtain ⟨h₁, h₂⟩ := g.edges_mem e he
  exact Prod.ext (number_insert h₁) (number_insert h₂)

theorem numberedEdges_connect (hm : m ∈ g.modules) (hd : d ∈ g.modules) (h : (m, d) ∉ g.edges) :
    (g.connect m d).numberedEdges = g.numberedEdges ++ [(g.number m, g.number d)] := by
  have hnumber : (g.connect m d).number = g.number := by
    funext a
    rw [number, modules_connect, number]
  rw [numberedEdges, hnumber, edges_connect hm hd h, List.map_append, numberedEdges]
  rfl

theorem nodup_numberedEdges : g.numberedEdges.Nodup := by
  refine List.Nodup.map_on (fun e he e' _ h => ?_) g.edges_nodup
  obtain ⟨h₁, h₂⟩ := g.edges_mem e he
  obtain ⟨hn₁, hn₂⟩ := Prod.mk.inj h
  exact Prod.ext ((number_inj h₁).1 hn₁) ((number_inj h₂).1 hn₂)

/-- The numbers of the edges lead back to their modules. -/
theorem map_numberedEdges : g.numberedEdges.map (Prod.map (g.modules[·]?) (g.modules[·]?)) =
    g.edges.map (Prod.map some some) := by
  rw [numberedEdges, List.map_map]
  refine List.map_congr_left fun e he => ?_
  obtain ⟨h₁, h₂⟩ := g.edges_mem e he
  exact Prod.ext (getElem?_number h₁) (getElem?_number h₂)

/-- Looked up by number, the far ends of the edges at a module are its neighbours. -/
theorem filterMap_numberedEdges (dir : Direction) :
    (g.numberedEdges.filter (dir.near · == g.number m)).filterMap (g.modules[dir.far ·]?) =
      (g.edges.filter (dir.near · == m)).map dir.far := by
  rw [numberedEdges, List.filter_map, List.filterMap_map]
  have hfilter : g.edges.filter ((dir.near · == g.number m) ∘ fun e => e.map g.number g.number) =
      g.edges.filter (dir.near · == m) := by
    refine List.filter_congr fun e he => ?_
    rw [Function.comp_apply, dir.near_map, Bool.eq_iff_iff, beq_iff_eq, beq_iff_eq]
    exact number_inj (dir.near_mem (g.edges_mem e he))
  rw [hfilter, ← List.filterMap_eq_map]
  refine List.filterMap_congr fun e he => ?_
  rw [Function.comp_apply, dir.far_map, Function.comp_apply]
  exact getElem?_number (dir.far_mem (g.edges_mem e (List.mem_of_mem_filter he)))

theorem nodup_neighbors (dir : Direction) :
    ((g.edges.filter (dir.near · == m)).map dir.far).Nodup := by
  refine List.Nodup.map_on (fun e he e' he' h => ?_) (g.edges_nodup.filter _)
  have hnear : dir.near e = dir.near e' :=
    (beq_iff_eq.1 (List.mem_filter.1 he).2).trans (beq_iff_eq.1 (List.mem_filter.1 he').2).symm
  exact dir.ext_near_far hnear h

end DependencyGraph

namespace IndexedGraph
variable {r r' : IndexedGraph} {g g' : DependencyGraph} {s : Growth} {steps : List Growth}
  {a b d m : ModuleName} {i j : Nat}

/-- The nodes are numbered as the modules of `g` are, and their names, their edges and the index all
go by these numbers. -/
structure Represents (r : IndexedGraph) (g : DependencyGraph) : Prop where
  names_eq : r.names = g.modules
  edges_eq : r.edges = g.numberedEdges
  getElem?_index : ∀ m, r.index[m]? = g.index? m

theorem represents_empty : (∅ : IndexedGraph).Represents ∅ where
  names_eq := rfl
  edges_eq := rfl
  getElem?_index _ := Std.ExtTreeMap.getElem?_empty

theorem connect_of_none (h : r.index[m]? = none ∨ r.index[d]? = none) : r.connect m d = r := by
  unfold connect
  split
  next hi hj => simp [hi, hj] at h
  next => rfl

/-- The number that is returned is that of the node of the module. -/
theorem getElem?_index_insert : (r.insert m).2.index[m]? = some (r.insert m).1 := by
  unfold insert
  split
  next h => exact h
  next => exact Std.ExtTreeMap.getElem?_insert_self

namespace Represents

theorem index_of_mem (h : r.Represents g) (hm : m ∈ g.modules) :
    r.index[m]? = some (g.number m) :=
  (h.getElem?_index m).trans (DependencyGraph.index?_of_mem hm)

theorem index_of_notMem (h : r.Represents g) (hm : m ∉ g.modules) : r.index[m]? = none :=
  (h.getElem?_index m).trans (DependencyGraph.index?_of_notMem hm)

theorem insert (h : r.Represents g) : (r.insert m).2.Represents (g.insert m) := by
  by_cases hm : m ∈ g.modules
  · rw [DependencyGraph.insert_of_mem hm]
    simpa [IndexedGraph.insert, h.index_of_mem hm] using h
  · simp only [IndexedGraph.insert, h.index_of_notMem hm]
    refine ⟨?_, ?_, fun a => ?_⟩
    · rw [h.names_eq, DependencyGraph.modules_insert_of_notMem hm]
    · rw [h.edges_eq, DependencyGraph.numberedEdges_insert]
    · rw [Std.ExtTreeMap.getElem?_insert, DependencyGraph.index?_insert hm, h.getElem?_index,
        h.names_eq]
      simp only [Std.compare_eq_iff_eq]

theorem connect (h : r.Represents g) : (r.connect m d).Represents (g.connect m d) := by
  by_cases hmd : m ∈ g.modules ∧ d ∈ g.modules
  · obtain ⟨hm, hd⟩ := hmd
    have hi := h.index_of_mem hm
    have hj := h.index_of_mem hd
    have hmem := DependencyGraph.mem_numberedEdges hm hd
    rw [← h.edges_eq] at hmem
    by_cases he : (m, d) ∈ g.edges
    · rw [DependencyGraph.connect_of_mem he]
      simpa [IndexedGraph.connect, hi, hj, hmem, he] using h
    · simp only [IndexedGraph.connect, hi, hj, hmem, he, if_false]
      refine ⟨?_, ?_, fun a => ?_⟩
      · rw [h.names_eq, DependencyGraph.modules_connect]
      · rw [h.edges_eq, DependencyGraph.numberedEdges_connect hm hd he]
      · rw [h.getElem?_index, DependencyGraph.index?, DependencyGraph.index?,
          DependencyGraph.modules_connect]
  · have hmissing := not_and_or.1 hmd
    rw [DependencyGraph.connect_of_notMem hmissing, connect_of_none]
    · exact h
    · exact hmissing.imp h.index_of_notMem h.index_of_notMem

theorem grow (h : r.Represents g) (s : Growth) : (r.grow s).Represents (g.grow s) := by
  cases s with
  | insert m => exact h.insert
  | connect m d => exact h.connect

/-- A graph is represented in one way. -/
theorem left_unique (h : r.Represents g) (h' : r'.Represents g) : r = r' := by
  have hindex : r.index = r'.index := Std.ExtTreeMap.ext_getElem? fun m =>
    (h.getElem?_index m).trans (h'.getElem?_index m).symm
  have hnames := h.names_eq.trans h'.names_eq.symm
  have hedges := h.edges_eq.trans h'.edges_eq.symm
  cases r
  cases r'
  simp_all only

/-- No two graphs are represented alike. -/
theorem right_unique (h : r.Represents g) (h' : r.Represents g') : g = g' := by
  have hmodules : g.modules = g'.modules := h.names_eq.symm.trans h'.names_eq
  have hnumbered : g.numberedEdges = g'.numberedEdges := h.edges_eq.symm.trans h'.edges_eq
  -- Numbers read in the same list of modules lead back to the same edges.
  have hsome : g.edges.map (Prod.map some some) = g'.edges.map (Prod.map some some) := by
    rw [← DependencyGraph.map_numberedEdges, ← DependencyGraph.map_numberedEdges, hnumbered,
      hmodules]
  have hinjective := (Option.some_injective ModuleName).prodMap (Option.some_injective ModuleName)
  have hedges : g.edges = g'.edges := List.map_injective_iff.2 hinjective hsome
  cases g
  cases g'
  simp_all only

theorem grow_eq_self_iff (h : r.Represents g) (s : Growth) : r.grow s = r ↔ g.grow s = g := by
  constructor
  · intro hr
    exact right_unique (hr ▸ h.grow s) h
  · intro hg
    exact left_unique (hg ▸ h.grow s) h

theorem neighbors_eq (h : r.Represents g) (dir : Direction) (m : ModuleName) : r.neighbors dir m =
    ModuleName.distinct ((g.edges.filter (dir.near · == m)).map dir.far) := by
  by_cases hm : m ∈ g.modules
  · simp only [neighbors, h.index_of_mem hm]
    rw [h.edges_eq, h.names_eq, DependencyGraph.filterMap_numberedEdges dir,
      ModuleName.inOrder_eq_distinct (DependencyGraph.nodup_neighbors dir)]
  · have hnone : g.edges.filter (dir.near · == m) = [] := by
      refine List.filter_eq_nil_iff.2 fun e he hnear => hm ?_
      exact beq_iff_eq.1 hnear ▸ dir.near_mem (g.edges_mem e he)
    simp only [neighbors, h.index_of_notMem hm, hnone]
    rfl

end Represents

theorem represents_grown : (grown steps).Represents (DependencyGraph.grown steps) := by
  induction steps using List.reverseRecOn with
  | nil => exact represents_empty
  | append_singleton steps s ih =>
    rw [DependencyGraph.grown_concat, grown, List.foldl_concat]
    exact ih.grow s

/-- The index and the nodes are the inverse of each other, and all that can be asked of the graph
has the same answer as for `g`. -/
structure Agrees (r : IndexedGraph) (g : DependencyGraph) : Prop where
  index_iff : ∀ (m : ModuleName) (i : Nat), r.index[m]? = some i ↔ r.names[i]? = some m
  names_eq : r.names = g.modules
  contains_eq : ∀ m, r.contains m = g.contains m
  size_eq : r.size = g.size
  edges_nodup : r.edges.Nodup
  mem_edges : ∀ i j, (i, j) ∈ r.edges ↔
    ∃ a b : ModuleName, r.index[a]? = some i ∧ r.index[b]? = some j ∧ (a, b) ∈ g.edges
  outgoing_eq : ∀ m, r.neighbors .outgoing m = g.dependencies m
  incoming_eq : ∀ m, r.neighbors .incoming m = g.dependents m
  insert_fst : ∀ m, (g.insert m).index? m = some (r.insert m).1
  grow_eq_self_iff : ∀ s, r.grow s = r ↔ g.grow s = g

namespace Represents

theorem contains_eq (h : r.Represents g) (m : ModuleName) : r.contains m = g.contains m := by
  rw [contains, Std.ExtTreeMap.contains_eq_isSome_getElem?, h.getElem?_index, Bool.eq_iff_iff,
    Option.isSome_iff_exists, DependencyGraph.exists_index?_iff, DependencyGraph.contains,
    List.contains_iff_mem]

theorem mem_edges (h : r.Represents g) : (i, j) ∈ r.edges ↔
    ∃ a b : ModuleName, r.index[a]? = some i ∧ r.index[b]? = some j ∧ (a, b) ∈ g.edges := by
  simp only [h.edges_eq, DependencyGraph.numberedEdges, List.mem_map, h.getElem?_index]
  constructor
  · rintro ⟨⟨a, b⟩, he, hnumbers⟩
    obtain ⟨rfl, rfl⟩ := Prod.mk.inj hnumbers
    obtain ⟨ha, hb⟩ := g.edges_mem _ he
    exact ⟨a, b, DependencyGraph.index?_of_mem ha, DependencyGraph.index?_of_mem hb, he⟩
  · rintro ⟨a, b, hi, hj, he⟩
    obtain ⟨ha, hb⟩ := g.edges_mem _ he
    refine ⟨(a, b), he, Prod.ext ?_ ?_⟩
    · exact Option.some.inj ((DependencyGraph.index?_of_mem ha).symm.trans hi)
    · exact Option.some.inj ((DependencyGraph.index?_of_mem hb).symm.trans hj)

theorem agrees (h : r.Represents g) : r.Agrees g where
  index_iff m i := by rw [h.getElem?_index, DependencyGraph.index?_eq_some_iff, h.names_eq]
  names_eq := h.names_eq
  contains_eq := h.contains_eq
  size_eq := congrArg List.length h.names_eq
  edges_nodup := h.edges_eq ▸ DependencyGraph.nodup_numberedEdges
  mem_edges _ _ := h.mem_edges
  outgoing_eq := h.neighbors_eq .outgoing
  incoming_eq := h.neighbors_eq .incoming
  insert_fst m := (h.insert.getElem?_index m).symm.trans getElem?_index_insert
  grow_eq_self_iff := h.grow_eq_self_iff

end Represents

/-- Whatever is added to the empty graph, in whatever order and however often, its modules and edges
are the additions that count, and so are its nodes and the index of their names. -/
theorem grown_in_step (steps : List Growth) : (DependencyGraph.grown steps).GrownBy steps ∧
    (grown steps).Agrees (DependencyGraph.grown steps) :=
  ⟨DependencyGraph.grownBy_grown, represents_grown.agrees⟩

end IndexedGraph

end ModuleExports
