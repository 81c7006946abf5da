import ModuleExports.Proofs.Reexport.Success

/-!
What more qualified imports do to a ref. Main statement: a name that a ref to `x` publishes stays
published when records are added behind the qualifier `x`, except that the first of these turn the
ref from the names imported from `x` to those behind the qualifier, and so drop every name that they
do not bring in themselves.
-/
namespace ModuleExports
open Std

namespace Imports
variable {i : Imports} {extra : List (NameKind × QualifiedName × ImportRecord)} {m x : ModuleName}
  {kind : NameKind} {key : QualifiedName} {records : List ImportRecord}

/-- Adds records one at a time. -/
def appendAll (i : Imports) (extra : List (NameKind × QualifiedName × ImportRecord)) : Imports :=
  extra.foldl (fun i e => i.append e.1 e.2.1 [e.2.2]) i

theorem appendAll_cons (i : Imports) (e : NameKind × QualifiedName × ImportRecord)
    (extra : List (NameKind × QualifiedName × ImportRecord)) :
    i.appendAll (e :: extra) = (i.append e.1 e.2.1 [e.2.2]).appendAll extra :=
  rfl

/-- Nothing that `x` qualifies is a name of `m` itself. -/
def ForeignBehind (i : Imports) (x m : ModuleName) : Prop :=
  ∀ kind key records, i.get? kind key = some records → key.module = some x →
    ∀ r ∈ records, r.module ≠ m

instance : Decidable (i.ForeignBehind x m) := decidable_of_iff _ forall_kind_get?_iff.symm

section
variable (h : ∀ e ∈ extra, e.1 ≠ .module)
include h

/-- No record goes away. -/
theorem exists_get?_appendAll (hk : i.get? kind key = some records) :
    ∃ added, (i.appendAll extra).get? kind key = some (records ++ added) := by
  induction extra generalizing i records with
  | nil => exact ⟨[], by rw [List.append_nil]; exact hk⟩
  | cons e extra ih =>
    obtain ⟨he, hextra⟩ := List.forall_mem_cons.1 h
    rw [appendAll_cons]
    have hget := get?_append i he e.2.1 [e.2.2] kind key
    split at hget
    next hek =>
      obtain ⟨rfl, rfl⟩ := hek
      obtain ⟨added, ha⟩ := ih hextra (hget.trans (by rw [hk, Option.getD_some]))
      exact ⟨e.2.2 :: added, by rw [ha, List.append_assoc, List.singleton_append]⟩
    next => exact ih hextra (hget.trans hk)

/-- The visible names are those that were visible, and those that records were added to. -/
theorem isSome_get?_appendAll : ((i.appendAll extra).get? kind key).isSome ↔
    (i.get? kind key).isSome ∨ ∃ e ∈ extra, e.1 = kind ∧ e.2.1 = key := by
  induction extra generalizing i with
  | nil => simp [appendAll]
  | cons e extra ih =>
    obtain ⟨he, hextra⟩ := List.forall_mem_cons.1 h
    rw [appendAll_cons, ih hextra, get?_append i he, List.exists_mem_cons_iff, ← or_assoc]
    split
    next hek => simp [hek]
    next hek =>
      have hek : ¬ (e.1 = kind ∧ e.2.1 = key) := fun h => hek ⟨h.1.symm, h.2.symm⟩
      simp only [hek, or_false]

theorem isQualifier_appendAll : (i.appendAll extra).isQualifier x ↔
    i.isQualifier x ∨ ∃ e ∈ extra, e.2.1.module = some x := by
  have hiff (i : Imports) :
      i.isQualifier x ↔ ∃ kind key, (i.get? kind key).isSome ∧ key.module = some x := by
    simp only [isQualifier_iff, Option.isSome_iff_exists, exists_and_right]
  simp only [hiff, isSome_get?_appendAll h]
  constructor
  · rintro ⟨kind, key, hk | ⟨e, he, -, rfl⟩, hq⟩
    · exact .inl ⟨kind, key, hk, hq⟩
    · exact .inr ⟨e, he, hq⟩
  · rintro (⟨kind, key, hk, hq⟩ | ⟨e, he, hq⟩)
    · exact ⟨kind, key, .inl hk, hq⟩
    · exact ⟨e.1, e.2.1, .inr ⟨e, he, rfl, rfl⟩, hq⟩

theorem KeepsNames.of_appendAll (hn : (i.appendAll extra).KeepsNames) : i.KeepsNames := by
  intro kind key records hk r hr
  obtain ⟨added, ha⟩ := exists_get?_appendAll h hk
  exact hn kind key _ ha r (List.mem_append_left added hr)

theorem ForeignBehind.of_appendAll (hf : (i.appendAll extra).ForeignBehind x m) :
    i.ForeignBehind x m := by
  intro kind key records hk hq r hr
  obtain ⟨added, ha⟩ := exists_get?_appendAll h hk
  exact hf kind key _ ha hq r (List.mem_append_left added hr)

end

end Imports

namespace ModuleView
variable {s : ModuleView} {x : ModuleName} {span : Span} {kind : NameKind} {n : String}
  {candidate y z : Interface} {extra : List (NameKind × QualifiedName × ImportRecord)}

theorem settlesAll_of_moduleTable {ns : Namespace} {t : Table ns}
    (h : (s.moduleTable x span ns).result = .ok t) : s.SettlesAll x span ns := by
  obtain ⟨records, -, hr, -⟩ := get?_moduleTable h
  exact exists_visible_iff.1 ⟨records, hr⟩

section Behind
variable (hx : x ≠ s.module) (hq : s.imports.isQualifier x)
  (hy : (s.complete candidate ∅ [⟨span, .module x⟩]).result = .ok y)
include hx hq hy

/-- A ref to a qualifier publishes the names of the records that the names behind it stand for. -/
theorem contains_iff_exists_inScopeBehind {ns : Namespace} :
    y.contains ns n ↔ ∃ q c, s.InScopeBehind x span ns q c ∧ c.name = n := by
  have htable := moduleTable_of_moduleInterface (complete_module hx hy) ns
  rw [Interface.contains, Interface.get?, contains_moduleTable htable]
  constructor
  · rintro ⟨key, r, hr, hrn⟩
    exact ⟨key.name, r, (publishes_behind hq).1 (hr.key_eq ▸ hr), hrn⟩
  · rintro ⟨q, c, hc, hcn⟩
    exact ⟨_, c, (publishes_behind hq).2 hc, hcn⟩

/-- Where imports keep their names and none behind the qualifier is the module's own, a ref to it
publishes all that stands behind it. -/
theorem contains_behind (hn : s.imports.KeepsNames) (hf : s.imports.ForeignBehind x s.module)
    {ns : Namespace} : y.contains ns n ↔ (s.imports.get? ns ⟨some x, n⟩).isSome := by
  rw [contains_iff_exists_inScopeBehind hx hq hy]
  constructor
  · rintro ⟨q, c, ⟨records, hc⟩, rfl⟩
    rw [hn ns _ records hc.found c (UseSite.mem_of_settle hc.chosen), hc.found]
    rfl
  · intro hs
    obtain ⟨records, hk⟩ := Option.isSome_iff_exists.1 hs
    have hb : s.belongs x ⟨some x, n⟩ records := by
      simp [belongs, hq, QualifiedName.hasQualifier]
    have htable := moduleTable_of_moduleInterface (complete_module hx hy) ns
    obtain ⟨c, hc⟩ := settlesAll_of_moduleTable htable ⟨some x, n⟩ records hk hb
    have hmem := UseSite.mem_of_settle hc
    exact ⟨n, c, ⟨records, hk, hc, hf ns _ records hk rfl c hmem⟩, hn ns _ records hk c hmem⟩

end Behind

/-- Whether a name that a ref to `x` publishes is left when records are added behind the qualifier
`x`. With any of them the ref stands for the names behind the qualifier alone, so that all are left
where `x` was a qualifier already, else those that the added records bring in themselves. -/
theorem contains_complete_appendAll (hx : x ≠ s.module)
    (hextra : ∀ e ∈ extra, e.1 ≠ .module ∧ e.2.1.module = some x)
    (hy : (s.complete candidate ∅ [⟨span, .module x⟩]).result = .ok y)
    (hz : ((s.withImports (s.imports.appendAll extra)).complete candidate ∅
      [⟨span, .module x⟩]).result = .ok z) {ns : Namespace} (hc : y.contains ns n) :
    (z.contains ns n ↔ extra = [] ∨ ∃ q c,
      (s.withImports (s.imports.appendAll extra)).InScopeBehind x span ns q c ∧ c.name = n) ∧
    ((s.imports.appendAll extra).KeepsNames →
      (s.imports.appendAll extra).ForeignBehind x s.module →
        (z.contains ns n ↔ extra = [] ∨ s.imports.isQualifier x ∨
          ∃ e ∈ extra, e.1 = .inNamespace ns ∧ e.2.1.name = n)) := by
  have hkinds : ∀ e ∈ extra, e.1 ≠ .module := fun e he => (hextra e he).1
  by_cases he : extra = []
  · subst he
    obtain rfl : y = z := Except.ok.inj (hy.symm.trans hz)
    simp [hc]
  simp only [he, false_or]
  have hq : (s.imports.appendAll extra).isQualifier x := by
    obtain ⟨e, he⟩ := List.exists_mem_of_ne_nil extra he
    exact (Imports.isQualifier_appendAll hkinds).2 (.inr ⟨e, he, (hextra e he).2⟩)
  refine ⟨?_, fun hn hf => ?_⟩
  · exact contains_iff_exists_inScopeBehind (s := s.withImports (s.imports.appendAll extra))
      hx hq hz
  have hbehind : z.contains ns n ↔ ((s.imports.appendAll extra).get? ns ⟨some x, n⟩).isSome :=
    contains_behind (s := s.withImports (s.imports.appendAll extra)) hx hq hz hn hf
  rw [hbehind, Imports.isSome_get?_appendAll hkinds]
  constructor
  · rintro (hs | ⟨e, hmem, hkind, hkey⟩)
    · obtain ⟨records, hk⟩ := Option.isSome_iff_exists.1 hs
      exact .inl (Imports.isQualifier_iff.2 ⟨ns, _, records, hk, rfl⟩)
    · exact .inr ⟨e, hmem, hkind, by rw [hkey]⟩
  · rintro (hq | ⟨e, hmem, hkind, hname⟩)
    · exact .inl ((contains_behind hx hq hy (hn.of_appendAll hkinds) (hf.of_appendAll hkinds)).1 hc)
    · have hkey : e.2.1 = ⟨some x, n⟩ := congrArg₂ QualifiedName.mk (hextra e hmem).2 hname
      exact .inr ⟨e, hmem, hkind, hkey⟩

/-- The module `M` opens `A`, which exports `f` and `g`. -/
def sampleOpened : ModuleView where
  env := ⟨({} : ModuleMap Interface).insert ⟨"A"⟩ (.candidate ⟨"A"⟩ [.value "f", .value "g"])⟩
  module := ⟨"M"⟩
  imports := .ofRecords ((∅ : ModuleSet).insert ⟨"A"⟩) [
    (.inNamespace .value, ⟨none, "f"⟩, ⟨⟨"A"⟩, "f", ⟨"A"⟩, .null, .implicit⟩),
    (.inNamespace .value, ⟨none, "g"⟩, ⟨⟨"A"⟩, "g", ⟨"A"⟩, .null, .implicit⟩)]
  settings := {}

/-- The function `g` of `A` once more, behind the qualifier `A`. -/
def sampleQualified : List (NameKind × QualifiedName × ImportRecord) :=
  [(.inNamespace .value, ⟨some ⟨"A"⟩, "g"⟩, ⟨⟨"A"⟩, "g", ⟨"A"⟩, .null, .implicit⟩)]

/-- Only what the qualified import brings in itself is left. -/
theorem contains_complete_appendAll_sampleOpened : ∃ y z : Interface,
    (sampleOpened.complete ∅ ∅ [⟨.null, .module ⟨"A"⟩⟩]).result = .ok y ∧
    ((sampleOpened.withImports (sampleOpened.imports.appendAll sampleQualified)).complete ∅ ∅
      [⟨.null, .module ⟨"A"⟩⟩]).result = .ok z ∧
    y.contains .value "g" ∧ z.contains .value "g" := by
  obtain ⟨y, hy, hyg⟩ : ∃ y, (sampleOpened.complete ∅ ∅ [⟨.null, .module ⟨"A"⟩⟩]).result = .ok y ∧
      y.contains .value "g" = true := except_map_eq_ok.1 (by cbv)
  obtain ⟨z, hz, -⟩ : ∃ z,
      ((sampleOpened.withImports (sampleOpened.imports.appendAll sampleQualified)).complete ∅ ∅
        [⟨.null, .module ⟨"A"⟩⟩]).result = .ok z ∧ z.names .value = ["g"] :=
    except_map_eq_ok.1 (by cbv)
  refine ⟨y, z, hy, hz, hyg, ?_⟩
  have hleft := (contains_complete_appendAll (by decide) (by decide) hy hz hyg).2
    (by decide +kernel) (by decide +kernel)
  exact hleft.2 (.inr (.inr ⟨_, List.mem_cons_self, rfl, rfl⟩))

/-- A name that the opened module brings in is gone once another one is also imported behind the
module's name. -/
theorem exists_not_contains_appendAll : sampleOpened.imports.isOpened ⟨"A"⟩ ∧
    (∀ e ∈ sampleQualified, e.1 ≠ .module ∧ e.2.1.module = some ⟨"A"⟩) ∧ ∃ y z : Interface,
      (sampleOpened.complete ∅ ∅ [⟨.null, .module ⟨"A"⟩⟩]).result = .ok y ∧
      ((sampleOpened.withImports (sampleOpened.imports.appendAll sampleQualified)).complete ∅ ∅
        [⟨.null, .module ⟨"A"⟩⟩]).result = .ok z ∧
      y.contains .value "f" ∧ ¬ z.contains .value "f" := by
  obtain ⟨y, hy, hyf⟩ : ∃ y, (sampleOpened.complete ∅ ∅ [⟨.null, .module ⟨"A"⟩⟩]).result = .ok y ∧
      y.contains .value "f" = true := except_map_eq_ok.1 (by cbv)
  obtain ⟨z, hz, hzf⟩ : ∃ z,
      ((sampleOpened.withImports (sampleOpened.imports.appendAll sampleQualified)).complete ∅ ∅
        [⟨.null, .module ⟨"A"⟩⟩]).result = .ok z ∧ z.contains .value "f" = false :=
    except_map_eq_ok.1 (by cbv)
  exact ⟨by decide +kernel, by decide, y, z, hy, hz, hyf, by simp [hzf]⟩

end ModuleView

end ModuleExports
