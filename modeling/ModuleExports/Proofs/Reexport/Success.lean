import ModuleExports.Proofs.Resolution.Failures
import ModuleExports.Proofs.Reexport.Scope

/-!
When a ref to another module comes to a table. Main statement: with imports that were validated, it
does exactly when the module is visible and each name that belongs to it can be settled.
-/
namespace ModuleExports
open Std

theorem Imports.Truthful.validated {i : Imports} {m : ModuleName} {env : Environment}
    (h : i.Truthful m env) : i.Validated m env := by
  intro ns key records hk r hr hm
  obtain ⟨y, e, hy, he, -⟩ := h ns key records hk r hr hm
  exact ⟨y, hy, by simp [Interface.contains, he]⟩

theorem Interface.exists_ofTablesM_iff {ω ε : Type} {t : (ns : Namespace) → Logged ω ε (Table ns)} :
    (∃ y, (ofTablesM t).result = .ok y) ↔ ∀ ns, ∃ u, (t ns).result = .ok u := by
  constructor
  · rintro ⟨y, hy⟩ ns
    exact ⟨_, table_of_ofTablesM hy ns⟩
  · intro h
    choose u hu using h
    refine ⟨ofTables u, ?_⟩
    simp only [ofTablesM, Logged.result_bind, hu]
    rfl

theorem Interface.logsOnly_ofTablesM {ω ε : Type} {P : ω → Prop}
    {t : (ns : Namespace) → Logged ω ε (Table ns)} (h : ∀ ns, (t ns).LogsOnly P) :
    (ofTablesM t).LogsOnly P :=
  (h _).bind fun _ _ => (h _).bind fun _ _ => (h _).bind fun _ _ => (h _).bind fun _ _ =>
    (h _).bind fun _ _ => .ofExcept _

namespace ModuleView
variable {s : ModuleView} {x : ModuleName} {span : Span} {kind : NameKind}

/-- Every name of the kind that belongs to `x` can be settled. -/
def SettlesAll (s : ModuleView) (x : ModuleName) (span : Span) (kind : NameKind) : Prop :=
  ∀ key records, s.imports.get? kind key = some records → s.belongs x key records →
    ∃ c, ((s.site span kind key.name).settle records).result = .ok c

theorem exists_visible_iff :
    (∃ found, (s.visible x span kind).result = .ok found) ↔ s.SettlesAll x span kind := by
  have hkeys : s.SettlesAll x span kind ↔
      ∀ k ∈ (s.imports.table kind).toList.filter fun k => s.belongs x k.1 k.2,
        ∃ c, ((s.site span kind k.1.name).settle k.2).result = .ok c := by
    simp only [List.mem_filter, ExtTreeMap.mem_toList_iff_getElem?_eq_some, Prod.forall, and_imp]
    rfl
  rw [hkeys]
  constructor
  · rintro ⟨found, h⟩ k hk
    obtain ⟨options, ho, -⟩ := Logged.result_bind_eq_ok.1 h
    rw [Logged.result_mapM] at ho
    obtain ⟨o, ho⟩ := exists_of_mapM_eq_ok ho k hk
    obtain ⟨c, hc, -⟩ := Logged.result_bind_eq_ok.1 ho
    exact ⟨c, hc⟩
  · intro h
    have hpublished : ∀ k ∈ (s.imports.table kind).toList.filter fun k => s.belongs x k.1 k.2,
        ∃ o, ((do
          let settled ← (s.site span kind k.1.name).settle k.2
          return s.published? x settled k.2 : Outcome (Option ImportRecord))).result = .ok o := by
      intro k hk
      obtain ⟨c, hc⟩ := h k hk
      exact ⟨_, Logged.result_bind_eq_ok.2 ⟨c, hc, rfl⟩⟩
    obtain ⟨options, ho⟩ := exists_mapM_eq_ok hpublished
    rw [← Logged.result_mapM] at ho
    exact ⟨_, Logged.result_bind_eq_ok.2 ⟨options, ho, rfl⟩⟩

theorem exists_visibleConstructors_iff {ns : Namespace} :
    (∃ found, (s.visibleConstructors x span ns).result = .ok found) ↔
      (ns = .type → s.SettlesAll x span .dataConstructor) := by
  cases ns with
  | type => simp [visibleConstructors, exists_visible_iff]
  | _ => simp [visibleConstructors]

theorem exists_moduleTable_iff (hv : s.imports.Validated s.module s.env) (hx : x ≠ s.module)
    {ns : Namespace} : (∃ t, (s.moduleTable x span ns).result = .ok t) ↔
      s.SettlesAll x span ns ∧ (ns = .type → s.SettlesAll x span .dataConstructor) := by
  rw [← exists_visible_iff, ← exists_visibleConstructors_iff]
  constructor
  · rintro ⟨t, h⟩
    obtain ⟨records, constructors, hr, hc, -⟩ := get?_moduleTable h
    exact ⟨⟨records, hr⟩, constructors, hc⟩
  · rintro ⟨⟨records, hr⟩, constructors, hc⟩
    -- Every record leads to an entry, so that only settling names could have failed.
    have hentry : ∀ t : Table ns, ∀ r ∈ records, ∃ u, ((do
        return t.insert r.name (← .ofExcept (s.reexport constructors r ns)) :
          Outcome (Table ns))).result = .ok u := by
      intro t r hrec
      obtain ⟨key, hp⟩ := (mem_visible hr).1 hrec
      obtain ⟨known, hk, hmem, hm⟩ := hp.exists_mem hx
      obtain ⟨y, hy, hc⟩ := hv ns key known hk r hmem hm
      obtain ⟨f, hf⟩ := Option.isSome_iff_exists.1 hc
      exact ⟨_, Logged.result_bind_eq_ok.2 ⟨_, reexport_eq_ok.2 ⟨y, f, hy, hf, rfl⟩, rfl⟩⟩
    obtain ⟨t, ht⟩ := exists_foldlM_eq_ok (b := ∅) hentry
    rw [← Logged.result_foldlM] at ht
    exact ⟨t, Logged.result_bind_eq_ok.2 ⟨records, hr,
      Logged.result_bind_eq_ok.2 ⟨constructors, hc, ht⟩⟩⟩

/-- A ref to another module comes to a table when the module is visible and its names settle. -/
theorem exists_moduleInterface_iff (hv : s.imports.Validated s.module s.env) (hx : x ≠ s.module) :
    (∃ y, (s.moduleInterface x span).result = .ok y) ↔
      (s.imports.isQualifier x ∨ s.imports.isOpened x) ∧
        (∀ ns : Namespace, s.SettlesAll x span ns) ∧ s.SettlesAll x span .dataConstructor := by
  rw [moduleInterface, ← Bool.or_eq_true]
  split
  next hs =>
    rw [Interface.exists_ofTablesM_iff]
    simp only [exists_moduleTable_iff hv hx, forall_and, forall_eq, hs, true_and]
  next hs =>
    constructor
    · rintro ⟨y, hy⟩
      cases hy
    · exact fun h => absurd h.1 hs

/-- What a ref to another module logs comes of settling the names that belong to it. -/
theorem logsOnly_moduleInterface {P : Warning → Prop} (h : ∀ kind key records,
    s.imports.get? kind key = some records → s.belongs x key records →
      ((s.site span kind key.name).settle records).LogsOnly P) :
    (s.moduleInterface x span).LogsOnly P := by
  have hvisible (kind : NameKind) : (s.visible x span kind).LogsOnly P := by
    refine .bind (.mapM fun k hk => ?_) fun _ _ => .ofExcept _
    obtain ⟨hk, hb⟩ := List.mem_filter.1 hk
    exact .bind (h _ _ _ (ExtTreeMap.mem_toList_iff_getElem?_eq_some.1 hk) hb) fun _ _ =>
      .ofExcept _
  rw [moduleInterface]
  split
  · refine Interface.logsOnly_ofTablesM fun ns => (hvisible ns).bind fun _ _ => .bind ?_ fun _ _ =>
      .foldlM fun _ _ _ => .bind (.ofExcept _) fun _ _ => .ofExcept _
    cases ns with
    | type => exact hvisible .dataConstructor
    | _ => exact .ofExcept _
  · exact .ofExcept _

end ModuleView

end ModuleExports
