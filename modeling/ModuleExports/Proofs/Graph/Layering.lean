import Mathlib.Data.List.Sort
import ModuleExports.Graph.Layers
import ModuleExports.Proofs.Graph.Reachability
import ModuleExports.Proofs.Outcome.Result

/-!
Layers in the order of dependencies. Main statements: the layers of a graph hold each of its modules
once, in increasing order within a layer, and no module reaches one of its own layer or of a later
one.
-/
namespace ModuleExports

namespace ModuleName

theorem distinct_perm {ms : List ModuleName} (h : ms.Nodup) : (distinct ms).Perm ms := by
  have hd : (distinct ms).Nodup := (pairwise_distinct ms).imp fun hab => by
    rintro rfl
    simp at hab
  exact (List.perm_ext_iff_of_nodup hd h).2 fun m => mem_distinct

/-- The same modules in increasing order make the same list. -/
theorem eq_of_increasing {ms ns : List ModuleName} (hm : ms.Pairwise fun a b => compare a b = .lt)
    (hn : ns.Pairwise fun a b => compare a b = .lt) (h : ∀ m, m ∈ ms ↔ m ∈ ns) : ms = ns := by
  have : Std.Irrefl fun a b : ModuleName => compare a b = .lt := ⟨fun a ha => by simp at ha⟩
  have : Std.Antisymm fun a b : ModuleName => compare a b = .lt :=
    ⟨fun a b hab hba => absurd hba (Std.OrientedCmp.not_lt_of_lt hab)⟩
  exact hm.eq_of_mem_iff hn h

theorem increasing_inOrder {ms : List ModuleName} (h : ms.Nodup) :
    (inOrder ms).Pairwise fun a b => compare a b = .lt := by
  have htotal (a b : ModuleName) : (compare a b).isLE || (compare b a).isLE := by
    by_cases hab : (compare a b).isLE
    · simp [hab]
    · simp [Std.OrientedCmp.lt_of_not_isLE hab]
  have hsorted : (inOrder ms).Pairwise fun a b => (compare a b).isLE :=
    List.pairwise_mergeSort (fun _ _ _ => Std.TransCmp.isLE_trans) htotal ms
  have hnodup : (inOrder ms).Nodup := (List.mergeSort_perm ms _).nodup_iff.2 h
  refine (hsorted.and hnodup).imp fun ⟨hle, hne⟩ => ?_
  exact (Ordering.isLE_iff_eq_lt_or_eq_eq.1 hle).resolve_right fun heq =>
    hne (Std.LawfulEqCmp.eq_of_compare heq)

end ModuleName

namespace DependencyGraph
variable {g : DependencyGraph} {ls : List (List ModuleName)} {l left : List ModuleName}
  {a b m : ModuleName}

/-- The layers are in increasing order each, and none of their modules depends on a module of the
same layer or of a later one. -/
inductive Layered (g : DependencyGraph) : List (List ModuleName) → Prop where
  | nil : Layered g []
  | cons {l : List ModuleName} {ls : List (List ModuleName)} :
      l.Pairwise (fun a b => compare a b = .lt) →
      (∀ a ∈ l, ∀ b ∈ (l :: ls).flatten, ¬ g.Reaches a b) → Layered g ls → Layered g (l :: ls)

theorem mem_of_reaches (hc : ∀ a b, (a, b) ∈ g.edges → b ∈ left → a ∈ left) (h : g.Reaches a b)
    (hb : b ∈ left) : a ∈ left := by
  induction h using Relation.TransGen.head_induction_on with
  | single hab => exact hc _ _ hab hb
  | head hac _ ih => exact hc _ _ hac ih

theorem isReady_iff : g.isReady left a ↔ ∀ d, (a, d) ∈ g.edges → d ∉ left := by
  simp [isReady]

/-- A module that depends directly on none of the rest reaches none of it, as long as the rest holds
all dependents of its modules. -/
theorem not_reaches_of_isReady (hc : ∀ a b, (a, b) ∈ g.edges → b ∈ left → a ∈ left)
    (ha : g.isReady left a) (hb : b ∈ left) : ¬ g.Reaches a b := by
  intro h
  obtain ⟨c, hac, hcb⟩ := Relation.TransGen.head'_iff.1 h
  have hcl : c ∈ left := by
    rcases Relation.reflTransGen_iff_eq_or_transGen.1 hcb with rfl | hcb
    · exact hb
    · exact mem_of_reaches hc hcb hb
  exact isReady_iff.1 ha c hac hcl

/-- Peeling off a rest that holds all dependents of its modules lays it out in layers. -/
theorem layered_of_peel (hl : left.Nodup) (hc : ∀ a b, (a, b) ∈ g.edges → b ∈ left → a ∈ left)
    (h : g.peel left = .ok ls) : g.Layered ls ∧ ls.flatten.Perm left := by
  fun_induction peel g left generalizing ls with
  | case1 =>
    cases h
    exact ⟨.nil, .refl _⟩
  | case2 m ms hr ready =>
    rename_i ih
    obtain ⟨rest, hp, h⟩ := except_bind_eq_ok.1 h
    obtain rfl := except_pure_eq_ok.1 h
    -- What is left next still holds all dependents: who depends on the rest is not ready.
    obtain ⟨hlr, hpr⟩ := ih (hl.filter _) (fun a b hab hb => by
      obtain ⟨hb, -⟩ := List.mem_filter.1 hb
      refine List.mem_filter.2 ⟨hc a b hab hb, ?_⟩
      by_contra ha
      exact not_reaches_of_isReady hc (by simpa using ha) hb (.single hab)) hp
    have hready := ModuleName.distinct_perm (hl.filter (g.isReady (m :: ms)))
    have hperm : (ModuleName.distinct ready :: rest).flatten.Perm (m :: ms) := by
      rw [List.flatten_cons]
      exact (hready.append hpr).trans (List.filter_append_perm _ _)
    refine ⟨.cons (ModuleName.pairwise_distinct _) (fun a ha b hb => ?_) hlr, hperm⟩
    have ha := (List.mem_filter.1 (ModuleName.mem_distinct.1 ha)).2
    exact not_reaches_of_isReady hc ha (hperm.mem_iff.1 hb)
  | case3 => cases h

/-- The layers of a graph hold each of its modules once. -/
theorem layered_of_layers (h : g.layers = .ok ls) : g.Layered ls ∧ ls.flatten.Perm g.modules :=
  layered_of_peel g.modules_nodup (fun _ _ hab _ => (g.edges_mem _ hab).1) h

namespace Layered

theorem increasing (h : g.Layered ls) (hl : l ∈ ls) : l.Pairwise fun a b => compare a b = .lt := by
  induction h with
  | nil => cases hl
  | cons hi _ _ ih =>
    rcases List.mem_cons.1 hl with rfl | hl
    · exact hi
    · exact ih hl

theorem not_reaches (h : g.Layered ls) (hl : l ∈ ls) (ha : a ∈ l) (hb : b ∈ l) :
    ¬ g.Reaches a b := by
  induction h with
  | nil => cases hl
  | cons _ hn _ ih =>
    rcases List.mem_cons.1 hl with rfl | hl
    · exact hn a ha b (by simp [hb])
    · exact ih hl

/-- A graph that can be laid out in layers has no cycle. -/
theorem not_reaches_self (h : g.Layered ls) (hp : ls.flatten.Perm g.modules) :
    ¬ g.Reaches m m := by
  intro hm
  obtain ⟨l, hl, hml⟩ := List.mem_flatten.1 (hp.mem_iff.2 hm.mem_left)
  exact h.not_reaches hl hml hml hm

/-- No module of a layer reaches one of the same layer or of those ahead. -/
theorem not_reaches_ahead {before after : List (List ModuleName)}
    (h : g.Layered (before ++ l :: after)) (ha : a ∈ l) (hb : b ∈ (l :: after).flatten) :
    ¬ g.Reaches a b := by
  induction before with
  | nil =>
    cases h with
    | cons _ hn _ => exact hn a ha b hb
  | cons k before ih =>
    cases h with
    | cons _ _ h => exact ih h

/-- In the order of the layers no module depends on one that comes later. -/
theorem pairwise_flatten (h : g.Layered ls) : ls.flatten.Pairwise fun a b => ¬ g.Reaches a b := by
  induction h with
  | nil => exact .nil
  | @cons l ls _ hn _ ih =>
    rw [List.flatten_cons, List.pairwise_append]
    refine ⟨List.pairwise_of_forall_mem_list fun a ha b hb => hn a ha b (by simp [hb]), ih, ?_⟩
    intro a ha b hb
    exact hn a ha b (List.mem_append_right l hb)

end Layered

end DependencyGraph

end ModuleExports
