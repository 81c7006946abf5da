import Mathlib
import ModuleExports.Proofs.Graph.Levels

/-!
Layers in one pass over the modules, each of which comes before what it depends on. Main statements:
the pass finds the length of the longest chain of dependencies from each module, and the modules put
together by these lengths are the layers, in whatever order they are put there.
-/
namespace ModuleExports

section Depth
variable {α : Type} {r : α → α → Prop} {a b : α} {i : Nat}

theorem depth_zero (h : ∀ b, ¬ r a b) : Depth r a 0 := by
  refine ⟨⟨[], .singleton a, rfl⟩, fun xs hxs => ?_⟩
  cases xs with
  | nil => exact Nat.le_refl 0
  | cons b xs => exact absurd (List.isChain_cons_cons.1 hxs).1 (h b)

/-- The longest chain goes on from the deepest of what one step leads to. -/
theorem Depth.succ (hab : r a b) (hb : Depth r b i) (h : ∀ c, r a c → ∃ j ≤ i, Depth r c j) :
    Depth r a (i + 1) := by
  obtain ⟨⟨xs, hxs, hlen⟩, -⟩ := hb
  refine ⟨⟨b :: xs, List.isChain_cons_cons.2 ⟨hab, hxs⟩, by rw [List.length_cons, hlen]⟩, ?_⟩
  intro ys hys
  cases ys with
  | nil => exact Nat.zero_le _
  | cons c ys =>
    obtain ⟨hac, hys⟩ := List.isChain_cons_cons.1 hys
    obtain ⟨j, hji, -, hmax⟩ := h c hac
    exact Nat.succ_le_succ ((hmax ys hys).trans hji)

end Depth

namespace DependencyGraph
variable {g : DependencyGraph} {order : List ModuleName} {known : ModuleMap Nat}
  {entries : List (ModuleName × Nat)} {ls : List (List ModuleName)} {a b m : ModuleName} {i : Nat}

/-- Each module of the graph once, before all that it depends on. -/
structure Topological (g : DependencyGraph) (order : List ModuleName) : Prop where
  perm : order.Perm g.modules
  pairwise : order.Pairwise fun a b => (b, a) ∉ g.edges
  loopless : ∀ e ∈ g.edges, e.1 ≠ e.2

namespace Topological

theorem ahead (h : g.Topological order) {before after : List ModuleName}
    (ho : order = before ++ a :: after) (hab : (a, b) ∈ g.edges) : b ∈ after := by
  have hmem : b ∈ order := h.perm.mem_iff.2 (g.edges_mem _ hab).2
  rw [ho, List.mem_append, List.mem_cons] at hmem
  rcases hmem with hbefore | rfl | hafter
  · have hpair := (List.pairwise_append.1 (ho ▸ h.pairwise)).2.2
    exact absurd hab (hpair b hbefore a List.mem_cons_self)
  · exact absurd rfl (h.loopless _ hab)
  · exact hafter

theorem reaches_ahead (h : g.Topological order) (hab : g.Reaches a b) :
    ∀ {before after}, order = before ++ a :: after → b ∈ after := by
  induction hab using Relation.TransGen.head_induction_on with
  | single hab => exact fun ho => h.ahead ho hab
  | @head a c hac _ ih =>
    intro before after ho
    obtain ⟨between, after, rfl⟩ := List.append_of_mem (h.ahead ho hac)
    have ho : order = (before ++ a :: between) ++ c :: after := by simp [ho]
    simp [ih ho]

/-- A graph whose modules can be put in such an order has no cycle. -/
theorem not_reaches_self (h : g.Topological order) : ¬ g.Reaches m m := by
  intro hm
  obtain ⟨before, after, ho⟩ := List.append_of_mem (h.perm.mem_iff.2 hm.mem_left)
  have hnodup : (before ++ m :: after).Nodup := ho ▸ h.perm.nodup_iff.2 g.modules_nodup
  have hfresh : m ∉ after := (List.nodup_cons.1 (List.nodup_append.1 hnodup).2.1).1
  exact hfresh (h.reaches_ahead hm ho)

end Topological

/-- Only the graphs without a cycle have such an order, and all of them do. -/
theorem exists_topological_iff : (∃ order, g.Topological order) ↔ ∀ m, ¬ g.Reaches m m := by
  refine ⟨fun ⟨_, h⟩ m => h.not_reaches_self, fun h => ?_⟩
  obtain ⟨ls, hls⟩ := exists_layers_iff.2 h
  obtain ⟨hl, hp⟩ := layered_of_layers hls
  refine ⟨ls.flatten.reverse, (List.reverse_perm _).trans hp, ?_, ?_⟩
  · exact List.pairwise_reverse.2 (hl.pairwise_flatten.imp fun hab he => hab (.single he))
  · intro ⟨a, b⟩ he heq
    obtain rfl : a = b := heq
    exact h a (.single he)

theorem depth_depthAfter
    (h : ∀ d, (m, d) ∈ g.edges →
      ∃ i, known[d]? = some i ∧ Depth (fun a b => (a, b) ∈ g.edges) d i) :
    Depth (fun a b => (a, b) ∈ g.edges) m (g.depthAfter known m) := by
  have hmem (k : Nat) : k ∈ ((g.successors m).filterMap (known[·]?)).map (· + 1) ↔
      ∃ d i, (m, d) ∈ g.edges ∧ known[d]? = some i ∧ i + 1 = k := by
    simp only [List.mem_map, List.mem_filterMap, mem_successors]
    grind
  unfold depthAfter
  cases hmax : (((g.successors m).filterMap (known[·]?)).map (· + 1)).max? with
  | none =>
    rw [List.max?_eq_none_iff] at hmax
    refine depth_zero fun d hd => ?_
    obtain ⟨i, hi, -⟩ := h d hd
    have hi := (hmem (i + 1)).2 ⟨d, i, hd, hi, rfl⟩
    simp [hmax] at hi
  | some k =>
    obtain ⟨hk, hle⟩ := List.max?_eq_some_iff.1 hmax
    obtain ⟨d, i, hd, hi, rfl⟩ := (hmem k).1 hk
    have depth_of {c : ModuleName} {j : Nat} (hc : (m, c) ∈ g.edges) (hj : known[c]? = some j) :
        Depth (fun a b => (a, b) ∈ g.edges) c j := by
      obtain ⟨j', hj', hdepth⟩ := h c hc
      obtain rfl := Option.some.inj (hj.symm.trans hj')
      exact hdepth
    refine Depth.succ hd (depth_of hd hi) fun c hc => ?_
    obtain ⟨j, hj, hdepth⟩ := h c hc
    exact ⟨j, Nat.le_of_succ_le_succ (hle _ ((hmem _).2 ⟨c, j, hc, hj, rfl⟩)), hdepth⟩

theorem mem_depths : m ∈ g.depths order ↔ m ∈ order := by
  induction order with
  | nil => simp [depths]
  | cons a order ih =>
    rw [depths, List.foldr_cons, ← depths, Std.ExtTreeMap.mem_insert, ih, List.mem_cons,
      Std.compare_eq_iff_eq, eq_comm]

/-- Where modules come before their dependencies, those are done when a module's turn comes. -/
theorem depth_of_depths
    (h : ∀ before a after, order = before ++ a :: after → ∀ d, (a, d) ∈ g.edges → d ∈ after)
    (hi : (g.depths order)[m]? = some i) : Depth (fun a b => (a, b) ∈ g.edges) m i := by
  induction order generalizing m i with
  | nil => simp [depths] at hi
  | cons a order ih =>
    have ih {m : ModuleName} {i : Nat} (hi : (g.depths order)[m]? = some i) :
        Depth (fun a b => (a, b) ∈ g.edges) m i :=
      ih (fun before b after ho => h (a :: before) b after (by rw [ho, List.cons_append])) hi
    rw [depths, List.foldr_cons, ← depths, Std.ExtTreeMap.getElem?_insert] at hi
    split at hi
    next heq =>
      obtain rfl := Std.LawfulEqCmp.eq_of_compare heq
      obtain rfl := Option.some.inj hi
      refine depth_depthAfter fun d hd => ?_
      have hmem : d ∈ g.depths order := mem_depths.2 (h [] a order rfl d hd)
      obtain ⟨j, hj⟩ := Option.isSome_iff_exists.1 (Std.ExtTreeMap.mem_iff_isSome_getElem?.1 hmem)
      exact ⟨j, hj, ih hj⟩
    next => exact ih hi

/-- The pass finds the length of the longest chain of dependencies from each module. -/
theorem Topological.getElem?_depths (h : g.Topological order) : (g.depths order)[m]? = some i ↔
    m ∈ g.modules ∧ Depth (fun a b => (a, b) ∈ g.edges) m i := by
  have hdepth {j : Nat} (hj : (g.depths order)[m]? = some j) :
      Depth (fun a b => (a, b) ∈ g.edges) m j :=
    depth_of_depths (fun _ _ _ ho _ => h.ahead ho) hj
  rw [← h.perm.mem_iff, ← mem_depths (g := g), Std.ExtTreeMap.mem_iff_isSome_getElem?,
    Option.isSome_iff_exists]
  constructor
  · intro hi
    exact ⟨⟨i, hi⟩, hdepth hi⟩
  · intro ⟨⟨j, hj⟩, hd⟩
    rw [hj, (hdepth hj).unique hd]

theorem lt_layerCount : i < layerCount entries ↔ ∃ t ∈ entries, i ≤ t.2 := by
  unfold layerCount
  cases hmax : (entries.map Prod.snd).max? with
  | none =>
    rw [List.max?_eq_none_iff, List.map_eq_nil_iff] at hmax
    simp [hmax]
  | some k =>
    obtain ⟨hk, hle⟩ := List.max?_eq_some_iff.1 hmax
    obtain ⟨t, ht, rfl⟩ := List.mem_map.1 hk
    rw [Option.elim_some, Nat.lt_succ_iff]
    constructor
    · intro hi
      exact ⟨t, ht, hi⟩
    · intro ⟨u, hu, hi⟩
      exact hi.trans (hle u.2 (List.mem_map_of_mem hu))

theorem getElem?_foldl_modify :
    (entries.foldl (fun ls t => ls.modify t.2 (· ++ [t.1])) ls)[i]? =
      ls[i]?.map (· ++ (entries.filter (·.2 == i)).map Prod.fst) := by
  induction entries generalizing ls with
  | nil => simp
  | cons t entries ih =>
    rw [List.foldl_cons, ih, List.getElem?_modify]
    by_cases ht : t.2 = i
    · simp [ht, Function.comp_def]
    · simp [ht]

/-- There are layers up to the greatest depth, each with the modules of its depth. -/
theorem getElem?_layersOf : (layersOf entries)[i]? = if i < layerCount entries then
    some (ModuleName.inOrder ((entries.filter (·.2 == i)).map Prod.fst)) else none := by
  rw [layersOf, List.getElem?_map, getElem?_foldl_modify, List.getElem?_replicate]
  split
  next => simp
  next => simp

theorem inLayer_layersOf : InLayer (layersOf entries) i m ↔ (m, i) ∈ entries := by
  rw [InLayer, getElem?_layersOf]
  constructor
  · rintro ⟨l, hl, hm⟩
    split at hl
    next =>
      obtain rfl := Option.some.inj hl
      simpa [ModuleName.inOrder] using hm
    next => cases hl
  · intro h
    rw [if_pos (lt_layerCount.2 ⟨_, h, Nat.le_refl i⟩)]
    exact ⟨_, rfl, by simpa [ModuleName.inOrder] using h⟩

theorem increasing_layersOf (h : (entries.map Prod.fst).Nodup) {l : List ModuleName}
    (hl : l ∈ layersOf entries) : l.Pairwise fun a b => compare a b = .lt := by
  obtain ⟨i, hi⟩ := List.mem_iff_getElem?.1 hl
  rw [getElem?_layersOf] at hi
  split at hi
  next =>
    obtain rfl := Option.some.inj hi
    exact ModuleName.increasing_inOrder (h.sublist (List.filter_sublist.map _))
  next => cases hi

/-- The modules put together by their levels make the levels. -/
theorem Leveled.layersOf_eq (h : g.Leveled ls) (hnodup : (entries.map Prod.fst).Nodup)
    (hin : ∀ i m, (m, i) ∈ entries ↔ InLayer ls i m) : layersOf entries = ls := by
  have hin (i : Nat) (m : ModuleName) : InLayer (layersOf entries) i m ↔ InLayer ls i m :=
    inLayer_layersOf.trans (hin i m)
  refine eq_of_inLayer hin (fun l hl => ?_) h.ne_nil (fun l => increasing_layersOf hnodup)
    h.increasing
  -- Some module is at least as deep as the layer, so there is a level for it, which is not empty.
  obtain ⟨i, hi⟩ := List.mem_iff_getElem?.1 hl
  obtain ⟨t, ht, hit⟩ : ∃ t ∈ entries, i ≤ t.2 := by
    rw [getElem?_layersOf] at hi
    split at hi
    next hlt => exact lt_layerCount.1 hlt
    next => cases hi
  obtain ⟨k, hk, -⟩ := (hin t.2 t.1).1 (inLayer_layersOf.2 ht)
  have hlt : i < ls.length := Nat.lt_of_le_of_lt hit (List.getElem?_eq_some_iff.1 hk).1
  obtain ⟨m, hm⟩ := List.exists_mem_of_ne_nil _ (h.ne_nil _ (List.getElem_mem hlt))
  obtain ⟨l', hl', hml⟩ := (hin i m).2 ⟨_, List.getElem?_eq_getElem hlt, hm⟩
  obtain rfl := Option.some.inj (hi.symm.trans hl')
  exact List.ne_nil_of_mem hml

theorem nodup_of_perm_toList (h : entries.Perm known.toList) : (entries.map Prod.fst).Nodup := by
  rw [(h.map Prod.fst).nodup_iff, Std.ExtTreeMap.map_fst_toList_eq_keys]
  exact Std.ExtTreeMap.nodup_keys

theorem Topological.layers_eq (h : g.Topological order)
    (he : entries.Perm (g.depths order).toList) : g.layers = .ok (layersOf entries) := by
  obtain ⟨ls, hls⟩ := exists_layers_iff.2 fun m => h.not_reaches_self
  have hleveled := leveled_of_layers hls
  rw [hls, hleveled.layersOf_eq (nodup_of_perm_toList he) fun i m => ?_]
  rw [he.mem_iff, Std.ExtTreeMap.mem_toList_iff_getElem?_eq_some, h.getElem?_depths,
    hleveled.inLayer_iff]

/-- A graph has layers exactly when no module reaches itself, as it has an order with dependents
first. The layers are its levels, and what the pass along any such order finds, in whatever order
the depths are listed. -/
theorem layers_leveled : ((∃ ls, g.layers = .ok ls) ↔ ∀ m, ¬ g.Reaches m m) ∧
    (∀ ls, g.layers = .ok ls ↔ g.Leveled ls) ∧
    ((∃ order, g.Topological order) ↔ ∀ m, ¬ g.Reaches m m) ∧
    ∀ order entries, g.Topological order → entries.Perm (g.depths order).toList →
      g.layers = .ok (layersOf entries) :=
  ⟨exists_layers_iff, fun _ => layers_eq_ok_iff, exists_topological_iff,
    fun _ _ h he => h.layers_eq he⟩

/-- `A` depends on `C` directly and through `B`. -/
def sampleShortcut : DependencyGraph where
  modules := [⟨"C"⟩, ⟨"A"⟩, ⟨"D"⟩, ⟨"B"⟩]
  edges := [(⟨"A"⟩, ⟨"C"⟩), (⟨"A"⟩, ⟨"B"⟩), (⟨"B"⟩, ⟨"C"⟩)]
  modules_nodup := by decide
  edges_nodup := by decide
  edges_mem := by decide

theorem layers_leveled_sampleShortcut :
    sampleShortcut.Topological [⟨"A"⟩, ⟨"D"⟩, ⟨"B"⟩, ⟨"C"⟩] ∧
      sampleShortcut.layers = .ok [[⟨"C"⟩, ⟨"D"⟩], [⟨"B"⟩], [⟨"A"⟩]] := by
  have horder : sampleShortcut.Topological [⟨"A"⟩, ⟨"D"⟩, ⟨"B"⟩, ⟨"C"⟩] :=
    ⟨by decide, by decide, by decide⟩
  have hpass := layers_leveled.2.2.2 _ _ horder (.refl _)
  have hlayers : layersOf (sampleShortcut.depths [⟨"A"⟩, ⟨"D"⟩, ⟨"B"⟩, ⟨"C"⟩]).toList =
      [[⟨"C"⟩, ⟨"D"⟩], [⟨"B"⟩], [⟨"A"⟩]] := by cbv
  exact ⟨horder, hpass.trans (congrArg _ hlayers)⟩

end DependencyGraph

end ModuleExports
