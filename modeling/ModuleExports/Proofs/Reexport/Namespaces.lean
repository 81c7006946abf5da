import Mathlib
import ModuleExports.Proofs.Reexport.Published
import ModuleExports.Proofs.Resolution.Reporting

/-!
The namespaces apart from each other. Main statement: what the refs of an export list publish in one
namespace is decided by what the module and its environment hold in that namespace alone, but for
the constructors of types and for which modules are qualifiers.
-/
namespace ModuleExports

@[simp] theorem Interface.table_overlay (lower upper : Interface) (ns : Namespace) :
    (lower.overlay upper).table ns = lower.table ns ∪ upper.table ns := by
  simp [overlay]

namespace ModuleView
variable {s s' : ModuleView} {ns : Namespace} {kind : NameKind} {refs : List ExportRef}
  {x : ModuleName} {span : Span}

/-- Two modules of one name see the same in the namespace, and the modules that the refs name are
qualifiers in both or in neither. In other namespaces what they see may differ. -/
structure AgreeOn (ns : Namespace) (refs : List ExportRef) (s s' : ModuleView) : Prop where
  module : s.module = s'.module
  env : ∀ m y y', s.env.get? m = some y → s'.env.get? m = some y' → y.table ns = y'.table ns
  imports : s.imports.table ns = s'.imports.table ns
  constructors : ns = .type → s.imports.table .dataConstructor = s'.imports.table .dataConstructor
  qualifiers : ∀ r ∈ refs, ∀ x, r.item.module? = some x →
    s.imports.isQualifier x = s'.imports.isQualifier x

/-- The record that is settled on depends on the records alone. -/
theorem result_settle_congr (hm : s.module = s'.module) (n : String) (records : List ImportRecord) :
    ((s.site span kind n).settle records).result =
      ((s'.site span kind n).settle records).result := by
  have hall : ({} : Settings).ReportsAll := ⟨rfl, rfl⟩
  obtain ⟨env, m, i, c⟩ := s
  obtain ⟨env', m', i', c'⟩ := s'
  obtain rfl : m = m' := hm
  rw [settle_keeping (c := c) hall, settle_keeping (c := c') hall]
  rfl

/-- The records of one kind are found in the table of that kind. -/
theorem result_visible_congr (hm : s.module = s'.module)
    (ht : s.imports.table kind = s'.imports.table kind)
    (hq : s.imports.isQualifier x = s'.imports.isQualifier x) :
    (s.visible x span kind).result = (s'.visible x span kind).result := by
  have hbelongs : s.belongs x = s'.belongs x := by
    funext key records
    simp only [belongs, hq]
  have hpublished : s.published? x = s'.published? x := by
    funext settled records
    simp only [published?, hm, hq]
  simp only [visible, Logged.result_bind, Logged.result_mapM, ht, hbelongs, hpublished,
    result_settle_congr hm]

namespace AgreeOn
variable (h : s.AgreeOn ns refs s')
include h

theorem result_visibleConstructors (hq : s.imports.isQualifier x = s'.imports.isQualifier x) :
    (s.visibleConstructors x span ns).result = (s'.visibleConstructors x span ns).result := by
  cases ns with
  | type => exact result_visible_congr h.module (h.constructors rfl) hq
  | _ => rfl

theorem reexport_eq {constructors : List ImportRecord} {r : ImportRecord} {e e' : Entry ns}
    (he : s.reexport constructors r ns = .ok e) (he' : s'.reexport constructors r ns = .ok e') :
    e = e' := by
  obtain ⟨y, f, hy, hf, rfl⟩ := reexport_eq_ok.1 he
  obtain ⟨y', f', hy', hf', rfl⟩ := reexport_eq_ok.1 he'
  have htable := h.env r.module y y' hy hy'
  have hff : some f = some f' := by rw [← hf, ← hf', Interface.get?, Interface.get?, htable]
  rw [Option.some.inj hff]

theorem moduleTable_eq (hq : s.imports.isQualifier x = s'.imports.isQualifier x) {t t' : Table ns}
    (ht : (s.moduleTable x span ns).result = .ok t)
    (ht' : (s'.moduleTable x span ns).result = .ok t') : t = t' := by
  obtain ⟨records, hr, ht⟩ := Logged.result_bind_eq_ok.1 ht
  obtain ⟨constructors, hc, ht⟩ := Logged.result_bind_eq_ok.1 ht
  obtain ⟨records', hr', ht'⟩ := Logged.result_bind_eq_ok.1 ht'
  obtain ⟨constructors', hc', ht'⟩ := Logged.result_bind_eq_ok.1 ht'
  rw [result_visible_congr h.module h.imports hq, hr'] at hr
  rw [h.result_visibleConstructors hq, hc'] at hc
  obtain rfl := Except.ok.inj hr
  obtain rfl := Except.ok.inj hc
  rw [Logged.result_foldlM] at ht ht'
  refine foldlM_rel (R := Eq) (fun r _ t u t' u' htt hu hu' => ?_) rfl ht ht'
  obtain ⟨e, he, hu⟩ := Logged.result_bind_eq_ok.1 hu
  obtain ⟨e', he', hu'⟩ := Logged.result_bind_eq_ok.1 hu'
  rw [← except_pure_eq_ok.1 hu, ← except_pure_eq_ok.1 hu', htt, h.reexport_eq he he']

variable {candidate candidate' : Interface} (hc : candidate.table ns = candidate'.table ns)
include hc

/-- One ref keeps two tables the same in the namespace. -/
theorem table_addRef {acc acc' y y' : Interface} {r : ExportRef} (hr : r ∈ refs)
    (hacc : acc.table ns = acc'.table ns) (hy : (s.addRef candidate acc r).result = .ok y)
    (hy' : (s'.addRef candidate' acc' r).result = .ok y') : y.table ns = y'.table ns := by
  unfold addRef at hy hy'
  cases hx : r.item.module? with
  | none =>
    rw [hx] at hy hy'
    obtain rfl := except_pure_eq_ok.1 hy
    obtain rfl := except_pure_eq_ok.1 hy'
    exact hacc
  | some x =>
    rw [hx] at hy hy'
    dsimp only at hy hy'
    rw [← h.module] at hy'
    by_cases hown : x = s.module
    · rw [if_pos hown] at hy hy'
      obtain rfl := except_pure_eq_ok.1 hy
      obtain rfl := except_pure_eq_ok.1 hy'
      simp [hc, hacc]
    · rw [if_neg hown] at hy hy'
      obtain ⟨z, hz, hy⟩ := Logged.result_bind_eq_ok.1 hy
      obtain ⟨z', hz', hy'⟩ := Logged.result_bind_eq_ok.1 hy'
      obtain rfl := except_pure_eq_ok.1 hy
      obtain rfl := except_pure_eq_ok.1 hy'
      have hzz := h.moduleTable_eq (h.qualifiers r hr x hx) (moduleTable_of_moduleInterface hz ns)
        (moduleTable_of_moduleInterface hz' ns)
      simp [hacc, hzz]

end AgreeOn

/-- Two modules that see the same in a namespace publish the same in it, whatever they see and
publish in the others, as long as neither list fails. -/
theorem table_complete_eq (h : s.AgreeOn ns refs s')
    {candidate candidate' narrowed narrowed' y y' : Interface}
    (hc : candidate.table ns = candidate'.table ns) (hn : narrowed.table ns = narrowed'.table ns)
    (hy : (s.complete candidate narrowed refs).result = .ok y)
    (hy' : (s'.complete candidate' narrowed' refs).result = .ok y') :
    y.table ns = y'.table ns := by
  rw [complete, Logged.result_foldlM] at hy hy'
  exact foldlM_rel (R := fun acc acc' : Interface => acc.table ns = acc'.table ns)
    (fun r hr _ _ _ _ hacc hz hz' => h.table_addRef hc hr hacc hz hz') hn hy hy'

/-- The module `M` imports a function of `A`, with a type and its constructor or with a class. -/
def sampleMixed (withType : Bool) : ModuleView where
  env :=
    let other := if withType then [.data "T" ["C"]] else [.typeClass "K" []]
    ⟨({} : ModuleMap Interface).insert ⟨"A"⟩ (.candidate ⟨"A"⟩ (.value "f" :: other))⟩
  module := ⟨"M"⟩
  imports :=
    let see (i : Imports) (kind : NameKind) (n : String) : Imports :=
      i.append kind ⟨none, n⟩ [⟨⟨"A"⟩, n, ⟨"A"⟩, .null, .implicit⟩]
    let shared := see (({} : Imports).openModule ⟨"A"⟩) (.inNamespace .value) "f"
    if withType then see (see shared (.inNamespace .type) "T") .dataConstructor "C"
    else see shared (.inNamespace .typeClass) "K"
  settings := {}

/-- The function is published in one way, whether with a type or with a class. -/
theorem table_complete_eq_sampleMixed : ∃ y y' : Interface,
    ((sampleMixed true).complete ∅ ∅ [⟨.null, .module ⟨"A"⟩⟩]).result = .ok y ∧
    ((sampleMixed false).complete ∅ ∅ [⟨.null, .module ⟨"A"⟩⟩]).result = .ok y' ∧
    y.contains .type "T" ∧ ¬ y'.contains .type "T" ∧ y.contains .value "f" ∧
    y.table .value = y'.table .value := by
  obtain ⟨y, hy, hyc⟩ : ∃ y,
      ((sampleMixed true).complete ∅ ∅ [⟨.null, .module ⟨"A"⟩⟩]).result = .ok y ∧
        (y.contains .type "T", y.contains .value "f") = (true, true) :=
    except_map_eq_ok.1 (by cbv)
  obtain ⟨y', hy', hyc'⟩ : ∃ y',
      ((sampleMixed false).complete ∅ ∅ [⟨.null, .module ⟨"A"⟩⟩]).result = .ok y' ∧
        y'.contains .type "T" = false := except_map_eq_ok.1 (by cbv)
  have hagree : (sampleMixed true).AgreeOn .value [⟨.null, .module ⟨"A"⟩⟩] (sampleMixed false) := by
    refine ⟨rfl, fun m x x' hx hx' => ?_, by decide +kernel, by simp, fun r hr a ha => ?_⟩
    · by_cases hm : (⟨"A"⟩ : ModuleName) = m
      · subst hm
        simp only [sampleMixed, Environment.get?, Std.ExtTreeMap.getElem?_insert_self,
          Option.some.injEq] at hx hx'
        subst hx hx'
        decide +kernel
      · simp [sampleMixed, Environment.get?, hm] at hx
    · obtain rfl := List.mem_singleton.1 hr
      obtain rfl := Option.some.inj ha
      decide +kernel
  exact ⟨y, y', hy, hy', by simp_all, by simp [hyc'], by simp_all,
    table_complete_eq hagree rfl rfl hy hy'⟩

end ModuleView

end ModuleExports
