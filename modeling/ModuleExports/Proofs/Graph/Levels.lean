import Mathlib.Data.Fintype.Card
import Mathlib.Data.Set.Finite.List
import ModuleExports.Proofs.Graph.Layering

/-!
Layers as a matter of the edges alone. Main statements: a graph has layers exactly when no module
reaches itself, they are its levels, in which a module stands as far up as its longest chain of
dependencies is long, and graphs with the same modules and edges have the same layers.
-/
namespace ModuleExports

section Depth
variable {α : Type} {r : α → α → Prop} {a : α} {i j : Nat}

/-- The longest chain of steps from `a` has `n` of them. -/
def Depth (r : α → α → Prop) (a : α) (n : Nat) : Prop :=
  (∃ xs, (a :: xs).IsChain r ∧ xs.length = n) ∧ ∀ xs, (a :: xs).IsChain r → xs.length ≤ n

theorem Depth.unique (hi : Depth r a i) (hj : Depth r a j) : i = j := by
  obtain ⟨⟨xs, hxs, rfl⟩, hi⟩ := hi
  obtain ⟨⟨ys, hys, rfl⟩, hj⟩ := hj
  exact Nat.le_antisymm (hj xs hxs) (hi ys hys)

end Depth

/-- Modules in the order of their depth, and those of one depth in the order of their names. -/
def Precedes (r : ModuleName → ModuleName → Prop) (a b : ModuleName) : Prop :=
  ∃ i j, Depth r a i ∧ Depth r b j ∧ (i < j ∨ i = j ∧ compare a b = .lt)

namespace Precedes
variable {r : ModuleName → ModuleName → Prop} {a b : ModuleName}
  {before after : List ModuleName}

theorem asymm (h : Precedes r a b) : ¬ Precedes r b a := by
  obtain ⟨i, j, hi, hj, hij⟩ := h
  intro ⟨j', i', hj', hi', hji⟩
  obtain rfl := hi.unique hi'
  obtain rfl := hj.unique hj'
  rcases hij with hij | ⟨rfl, hab⟩
  · omega
  · rcases hji with hji | ⟨-, hba⟩
    · omega
    · exact Std.OrientedCmp.not_lt_of_lt hab hba

theorem irrefl : ¬ Precedes r a a := fun h => h.asymm h

instance : Std.Irrefl (Precedes r) := ⟨fun _ => irrefl⟩

instance : Std.Antisymm (Precedes r) := ⟨fun _ _ hab hba => absurd hba hab.asymm⟩

/-- In order, the modules before another one are those that precede it. -/
theorem mem_before_iff (h : (before ++ b :: after).Pairwise (Precedes r)) :
    a ∈ before ↔ a ∈ before ++ b :: after ∧ Precedes r a b := by
  rw [List.pairwise_append, List.pairwise_cons] at h
  obtain ⟨-, ⟨hafter, -⟩, hbefore⟩ := h
  refine ⟨fun ha => ⟨List.mem_append_left _ ha, hbefore a ha b List.mem_cons_self⟩, ?_⟩
  intro ⟨ha, hab⟩
  refine (List.mem_append.1 ha).resolve_right fun ha => ?_
  rcases List.mem_cons.1 ha with rfl | ha
  · exact irrefl hab
  · exact hab.asymm (hafter a ha)

end Precedes

namespace DependencyGraph
variable {g g' : DependencyGraph} {ls ls' : List (List ModuleName)}
  {l k left left' : List ModuleName} {a b m : ModuleName} {i j : Nat}

/-- Where no module reaches itself, some module depends on none of those that are left. -/
theorem exists_isReady (h : ∀ m, ¬ g.Reaches m m) (hm : m ∈ left) :
    ∃ a ∈ left, g.isReady left a := by
  let below (a b : {a // a ∈ left}) : Prop := g.Reaches b.1 a.1
  have : IsTrans _ below := ⟨fun _ _ _ hab hbc => hbc.trans hab⟩
  have : Std.Irrefl below := ⟨fun a => h a.1⟩
  have : Finite {a // a ∈ left} := left.finite_toSet
  obtain ⟨a, -, ha⟩ :=
    (Finite.wellFounded_of_trans_of_irrefl below).has_min Set.univ ⟨⟨m, hm⟩, trivial⟩
  exact ⟨a.1, a.2, isReady_iff.2 fun d hd hleft => ha ⟨d, hleft⟩ trivial (.single hd)⟩

theorem exists_peel (h : ∀ m, ¬ g.Reaches m m) (left : List ModuleName) :
    ∃ ls, g.peel left = .ok ls := by
  fun_induction peel g left with
  | case1 => exact ⟨[], rfl⟩
  | case2 m ms hr ready ih =>
    obtain ⟨ls, hls⟩ := ih
    exact ⟨_, except_bind_eq_ok.2 ⟨ls, hls, rfl⟩⟩
  | case3 m ms hr =>
    obtain ⟨a, ha, hready⟩ := exists_isReady h (List.mem_cons_self (a := m) (l := ms))
    exact absurd (List.any_eq_true.2 ⟨a, ha, hready⟩) hr

/-- A graph has layers exactly when no module reaches itself. -/
theorem exists_layers_iff : (∃ ls, g.layers = .ok ls) ↔ ∀ m, ¬ g.Reaches m m := by
  refine ⟨?_, fun h => exists_peel h g.modules⟩
  intro ⟨ls, h⟩ m
  obtain ⟨hl, hp⟩ := layered_of_layers h
  exact hl.not_reaches_self hp

theorem failsOnly_peel : FailsOnly (· = .circularDependency g.cycle) (g.peel left) := by
  fun_induction peel g left with
  | case1 => exact .ok _
  | case2 m ms hr ready ih => exact ih.bind fun _ _ => .ok _
  | case3 => exact .error rfl

theorem isReady_congr (he : ∀ a b, (a, b) ∈ g.edges ↔ (a, b) ∈ g'.edges)
    (hl : ∀ m, m ∈ left ↔ m ∈ left') : g.isReady left = g'.isReady left' := by
  funext m
  rw [Bool.eq_iff_iff, isReady_iff, isReady_iff]
  simp only [he, hl]

theorem peel_of_any_isReady (h : left.any (g.isReady left)) : g.peel left = do
    return ModuleName.distinct (left.filter (g.isReady left)) ::
      (← g.peel (left.filter fun n => !g.isReady left n)) := by
  cases left with
  | nil => simp at h
  | cons m ms => rw [peel, dif_pos h]

/-- Peeling off goes by which modules are left, in whatever order. -/
theorem peel_congr (he : ∀ a b, (a, b) ∈ g.edges ↔ (a, b) ∈ g'.edges)
    (hl : ∀ m, m ∈ left ↔ m ∈ left') (h : g.peel left = .ok ls) : g'.peel left' = .ok ls := by
  fun_induction peel g left generalizing left' ls with
  | case1 =>
    obtain rfl : left' = [] :=
      List.eq_nil_iff_forall_not_mem.2 fun m hm => by simpa using (hl m).2 hm
    rwa [peel]
  | case2 m ms hr ready =>
    rename_i ih
    obtain ⟨rest, hrest, h⟩ := except_bind_eq_ok.1 h
    obtain rfl := except_pure_eq_ok.1 h
    have hready := isReady_congr he hl
    have hr' : left'.any (g'.isReady left') := by
      obtain ⟨n, hn, hrn⟩ := List.any_eq_true.1 hr
      exact List.any_eq_true.2 ⟨n, (hl n).1 hn, hready ▸ hrn⟩
    have hrest' : g'.peel (left'.filter fun n => !g'.isReady left' n) = .ok rest :=
      ih (fun n => by simp only [List.mem_filter, hl, hready]) hrest
    have hfirst : ModuleName.distinct ready =
        ModuleName.distinct (left'.filter (g'.isReady left')) :=
      ModuleName.distinct_congr fun n => by simp only [ready, List.mem_filter, hl, hready]
    rw [peel_of_any_isReady hr', hrest', hfirst]
    rfl
  | case3 => cases h

/-- Graphs with the same modules and edges have the same layers. -/
theorem layers_congr (hm : ∀ m, m ∈ g.modules ↔ m ∈ g'.modules)
    (he : ∀ a b, (a, b) ∈ g.edges ↔ (a, b) ∈ g'.edges) (h : g.layers = .ok ls) :
    g'.layers = .ok ls :=
  peel_congr he hm h

theorem eq_distinct_of_peel (h : g.peel left = .ok (l :: ls)) :
    l = ModuleName.distinct (left.filter (g.isReady left)) := by
  unfold peel at h
  split at h
  next => cases h
  next m ms =>
    split at h
    next =>
      obtain ⟨rest, -, h⟩ := except_bind_eq_ok.1 h
      exact (List.cons.inj (except_pure_eq_ok.1 h)).1.symm
    next => cases h

/-- Each module of a layer depends directly on one of the layer before. -/
theorem isChain_of_peel (h : g.peel left = .ok ls) :
    ls.IsChain fun l k => ∀ a ∈ k, ∃ b ∈ l, (a, b) ∈ g.edges := by
  fun_induction peel g left generalizing ls with
  | case1 =>
    cases h
    exact .nil
  | case2 m ms hr ready =>
    rename_i ih
    obtain ⟨rest, hrest, h⟩ := except_bind_eq_ok.1 h
    obtain rfl := except_pure_eq_ok.1 h
    refine List.isChain_cons.2 ⟨fun k hk a ha => ?_, ih hrest⟩
    obtain ⟨ks, rfl⟩ := List.head?_eq_some_iff.1 hk
    rw [eq_distinct_of_peel hrest, ModuleName.mem_distinct, List.mem_filter, List.mem_filter] at ha
    obtain ⟨⟨-, hwaits⟩, hready⟩ := ha
    -- The module waits for one that is left, which is gone when the module is ready.
    obtain ⟨b, hab, hleft⟩ : ∃ b, (a, b) ∈ g.edges ∧ b ∈ m :: ms := by
      have hwaits : ¬ g.isReady (m :: ms) a := by simpa using hwaits
      simpa only [isReady_iff, not_forall, not_not, exists_prop] using hwaits
    have hgone := isReady_iff.1 hready b hab
    refine ⟨b, ModuleName.mem_distinct.2 (List.mem_filter.2 ⟨hleft, ?_⟩), hab⟩
    by_contra hb
    exact hgone (List.mem_filter.2 ⟨hleft, by simpa using hb⟩)
  | case3 => cases h

/-- Dependencies lead to earlier layers. -/
theorem Layered.lt_of_reaches (hl : g.Layered ls) (hi : ls[i]? = some l) (ha : a ∈ l)
    (hj : ls[j]? = some k) (hb : b ∈ k) (h : g.Reaches a b) : j < i := by
  induction hl generalizing i j with
  | nil => simp at hi
  | cons _ hn _ ih =>
    cases i with
    | zero =>
      obtain rfl := Option.some.inj hi
      exact absurd h (hn a ha b (List.mem_flatten.2 ⟨k, List.mem_of_getElem? hj, hb⟩))
    | succ i =>
      cases j with
      | zero => exact Nat.succ_pos i
      | succ j => exact Nat.succ_lt_succ (ih hi hj)

/-- From a module of the layer `i` there is a chain of `i` dependencies. -/
theorem exists_chain (hc : ls.IsChain fun l k => ∀ a ∈ k, ∃ b ∈ l, (a, b) ∈ g.edges)
    (hi : ls[i]? = some l) (hm : m ∈ l) :
    ∃ xs, (m :: xs).IsChain (fun a b => (a, b) ∈ g.edges) ∧ xs.length = i := by
  induction i generalizing l m with
  | zero => exact ⟨[], .singleton m, rfl⟩
  | succ i ih =>
    obtain ⟨hlt, rfl⟩ := List.getElem?_eq_some_iff.1 hi
    obtain ⟨b, hb, hmb⟩ := List.isChain_iff_getElem.1 hc i hlt m hm
    obtain ⟨xs, hxs, rfl⟩ := ih (List.getElem?_eq_getElem (Nat.lt_of_succ_lt hlt)) hb
    exact ⟨b :: xs, List.isChain_cons_cons.2 ⟨hmb, hxs⟩, rfl⟩

/-- No chain of dependencies from a module of the layer `i` is longer than that. -/
theorem Layered.length_le (hl : g.Layered ls) (hp : ls.flatten.Perm g.modules)
    (hi : ls[i]? = some l) (hm : m ∈ l) {xs : List ModuleName}
    (h : (m :: xs).IsChain fun a b => (a, b) ∈ g.edges) : xs.length ≤ i := by
  induction xs generalizing i l m with
  | nil => exact Nat.zero_le i
  | cons b xs ih =>
    obtain ⟨hmb, h⟩ := List.isChain_cons_cons.1 h
    obtain ⟨k, hk, hb⟩ := List.mem_flatten.1 (hp.mem_iff.2 (g.edges_mem _ hmb).2)
    obtain ⟨j, hj⟩ := List.mem_iff_getElem?.1 hk
    have hji := hl.lt_of_reaches hi hm hj hb (.single hmb)
    have hlen := ih hj hb h
    exact Nat.lt_of_le_of_lt hlen hji

/-- The layer of a module is the length of the longest chain of dependencies from it. -/
theorem depth_of_layers (h : g.layers = .ok ls) (hi : ls[i]? = some l) (hm : m ∈ l) :
    Depth (fun a b => (a, b) ∈ g.edges) m i := by
  obtain ⟨hl, hp⟩ := layered_of_layers h
  exact ⟨exists_chain (isChain_of_peel h) hi hm, fun xs hxs => hl.length_le hp hi hm hxs⟩

/-- Layer after layer, modules stand in the order of their depths and their names. -/
theorem pairwise_precedes (h : g.layers = .ok ls) :
    ls.flatten.Pairwise (Precedes fun a b => (a, b) ∈ g.edges) := by
  obtain ⟨hl, -⟩ := layered_of_layers h
  refine List.pairwise_flatten.2 ⟨fun l hmem => ?_, List.pairwise_iff_getElem.2 ?_⟩
  · obtain ⟨i, hi⟩ := List.mem_iff_getElem?.1 hmem
    refine (hl.increasing hmem).imp_of_mem fun ha hb hab => ?_
    exact ⟨i, i, depth_of_layers h hi ha, depth_of_layers h hi hb, .inr ⟨rfl, hab⟩⟩
  · intro i j hi hj hij a ha b hb
    exact ⟨i, j, depth_of_layers h (List.getElem?_eq_getElem hi) ha,
      depth_of_layers h (List.getElem?_eq_getElem hj) hb, .inl hij⟩

/-- The module `m` stands in the layer `i`. -/
def InLayer (ls : List (List ModuleName)) (i : Nat) (m : ModuleName) : Prop :=
  ∃ l, ls[i]? = some l ∧ m ∈ l

/-- The layers hold the modules of the graph by the lengths of their longest chains of dependencies,
and so dependencies before what depends on them, as early as that allows. -/
structure Leveled (g : DependencyGraph) (ls : List (List ModuleName)) : Prop where
  /-- No module stands in two layers, or in one of them twice. -/
  nodup : ls.flatten.Nodup
  inLayer_iff : ∀ i m, InLayer ls i m ↔ m ∈ g.modules ∧ Depth (fun a b => (a, b) ∈ g.edges) m i
  placed : ∀ m ∈ g.modules, ∃ i, InLayer ls i m
  earlier : ∀ i j a b, InLayer ls i a → InLayer ls j b → g.Reaches a b → j < i
  direct : ∀ i m d, InLayer ls i m → (m, d) ∈ g.edges →
    ∃ j b, i = j + 1 ∧ InLayer ls j b ∧ (m, b) ∈ g.edges
  ne_nil : ∀ l ∈ ls, l ≠ []
  increasing : ∀ l ∈ ls, l.Pairwise fun a b => compare a b = .lt

theorem exists_inLayer_iff : (∃ i, InLayer ls i m) ↔ m ∈ ls.flatten := by
  rw [List.mem_flatten]
  constructor
  · intro ⟨i, l, hi, hm⟩
    exact ⟨l, List.mem_of_getElem? hi, hm⟩
  · intro ⟨l, hl, hm⟩
    obtain ⟨i, hi⟩ := List.mem_iff_getElem?.1 hl
    exact ⟨i, l, hi, hm⟩

theorem getElem?_of_inLayer (h : ∀ i m, InLayer ls i m ↔ InLayer ls' i m)
    (hne : ∀ l ∈ ls, l ≠ []) (hs : ∀ l ∈ ls, l.Pairwise fun a b => compare a b = .lt)
    (hs' : ∀ l ∈ ls', l.Pairwise fun a b => compare a b = .lt) (hi : ls[i]? = some l) :
    ls'[i]? = some l := by
  have hl (m : ModuleName) : InLayer ls i m ↔ m ∈ l := by simp [InLayer, hi]
  obtain ⟨m, hm⟩ := List.exists_mem_of_ne_nil l (hne l (List.mem_of_getElem? hi))
  obtain ⟨k, hk, -⟩ := (h i m).1 ((hl m).2 hm)
  have hmem (m : ModuleName) : m ∈ k ↔ m ∈ l := by
    rw [← hl, h]
    simp [InLayer, hk]
  rw [hk, ModuleName.eq_of_increasing (hs' k (List.mem_of_getElem? hk))
    (hs l (List.mem_of_getElem? hi)) hmem]

/-- Layers that are in order and not empty are given by which modules stand in which of them. -/
theorem eq_of_inLayer (h : ∀ i m, InLayer ls i m ↔ InLayer ls' i m) (hne : ∀ l ∈ ls, l ≠ [])
    (hne' : ∀ l ∈ ls', l ≠ []) (hs : ∀ l ∈ ls, l.Pairwise fun a b => compare a b = .lt)
    (hs' : ∀ l ∈ ls', l.Pairwise fun a b => compare a b = .lt) : ls = ls' := by
  refine List.ext_getElem? fun i => Option.ext fun l => ⟨?_, ?_⟩
  · exact getElem?_of_inLayer h hne hs hs'
  · exact getElem?_of_inLayer (fun i m => (h i m).symm) hne' hs' hs

theorem ne_nil_of_peel (h : g.peel left = .ok ls) : ∀ l ∈ ls, l ≠ [] := by
  fun_induction peel g left generalizing ls with
  | case1 =>
    cases h
    simp
  | case2 m ms hr ready =>
    rename_i ih
    obtain ⟨rest, hrest, h⟩ := except_bind_eq_ok.1 h
    obtain rfl := except_pure_eq_ok.1 h
    obtain ⟨a, ha, hready⟩ := List.any_eq_true.1 hr
    have hfirst : a ∈ ModuleName.distinct ready :=
      ModuleName.mem_distinct.2 (List.mem_filter.2 ⟨ha, hready⟩)
    exact List.forall_mem_cons.2 ⟨List.ne_nil_of_mem hfirst, ih hrest⟩
  | case3 => cases h

theorem leveled_of_layers (h : g.layers = .ok ls) : g.Leveled ls := by
  obtain ⟨hl, hp⟩ := layered_of_layers h
  have hplaced : ∀ m ∈ g.modules, ∃ i, InLayer ls i m := fun m hm =>
    exists_inLayer_iff.2 (hp.mem_iff.2 hm)
  have hdepth : ∀ i m, InLayer ls i m → Depth (fun a b => (a, b) ∈ g.edges) m i :=
    fun i m ⟨l, hi, hm⟩ => depth_of_layers h hi hm
  refine ⟨hp.nodup_iff.2 g.modules_nodup, fun i m => ⟨fun hm => ?_, ?_⟩, hplaced, ?_, ?_,
    ne_nil_of_peel h, fun l => hl.increasing⟩
  · exact ⟨hp.mem_iff.1 (exists_inLayer_iff.1 ⟨i, hm⟩), hdepth i m hm⟩
  · intro ⟨hm, hd⟩
    obtain ⟨j, hj⟩ := hplaced m hm
    exact (hdepth j m hj).unique hd ▸ hj
  · intro i j a b ⟨l, hi, ha⟩ ⟨k, hj, hb⟩ hab
    exact hl.lt_of_reaches hi ha hj hb hab
  · intro i m d ⟨l, hi, hm⟩ hd
    -- A module of the first layer depends on nothing, a later one on a module of the layer before.
    cases i with
    | zero =>
      have hle := hl.length_le hp hi hm (List.isChain_cons_cons.2 ⟨hd, .singleton d⟩)
      simp at hle
    | succ j =>
      obtain ⟨hlt, rfl⟩ := List.getElem?_eq_some_iff.1 hi
      obtain ⟨b, hb, hmb⟩ := List.isChain_iff_getElem.1 (isChain_of_peel h) j hlt m hm
      exact ⟨j, b, rfl, ⟨_, List.getElem?_eq_getElem (Nat.lt_of_succ_lt hlt), hb⟩, hmb⟩

namespace Leveled

theorem not_reaches_self (h : g.Leveled ls) : ¬ g.Reaches m m := by
  intro hm
  obtain ⟨i, hi⟩ := h.placed m hm.mem_left
  exact Nat.lt_irrefl i (h.earlier i i m m hi hi hm)

/-- The modules of a graph have one list of levels at most. -/
theorem unique (h : g.Leveled ls) (h' : g.Leveled ls') : ls = ls' :=
  eq_of_inLayer (fun i m => (h.inLayer_iff i m).trans (h'.inLayer_iff i m).symm) h.ne_nil h'.ne_nil
    h.increasing h'.increasing

end Leveled

/-- The layers of a graph are its levels. -/
theorem layers_eq_ok_iff : g.layers = .ok ls ↔ g.Leveled ls := by
  refine ⟨leveled_of_layers, fun h => ?_⟩
  obtain ⟨ls', hls⟩ := exists_layers_iff.2 fun m => h.not_reaches_self
  rw [hls, h.unique (leveled_of_layers hls)]

end DependencyGraph

end ModuleExports
