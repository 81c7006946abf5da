import Mathlib
import ModuleExports.Proofs.ExportList.Narrowing
import ModuleExports.Proofs.Reexport.Published
import ModuleExports.Resolution

/-!
How a resolution can fail. Main statements: it fails with a fault of the module that it resolves, or
with a defect that its import tables carry, and tables that were validated carry none.
-/
namespace ModuleExports
open Std

namespace ModuleView
variable {s : ModuleView} {x : ModuleName} {span : Span}

/-- What a failure comes from: the module itself, or an import table that leads nowhere. -/
inductive Cause (s : ModuleView) : Failure → Prop where
  | own {e : Failure} : e.module? = some s.module → Cause s e
  | noRecords {kind : NameKind} {key : QualifiedName} : s.imports.get? kind key = some [] →
      Cause s (.internal (.noRecords kind key.name))
  | missingModule {ns : Namespace} {key : QualifiedName} {records : List ImportRecord}
      {r : ImportRecord} : s.imports.get? ns key = some records → r ∈ records →
      r.module ≠ s.module → s.env.get? r.module = none →
      Cause s (.internal (.missingModule r.module))
  | notExported {ns : Namespace} {key : QualifiedName} {records : List ImportRecord}
      {r : ImportRecord} {y : Interface} : s.imports.get? ns key = some records → r ∈ records →
      r.module ≠ s.module → s.env.get? r.module = some y → y.get? ns r.name = none →
      Cause s (.internal (.notExported ns r.name r.module))

/-- What a failure of a ref to the other module `x` comes from: nothing is known of `x`, a name that
the ref publishes is ambiguous, or an import table leads nowhere. -/
inductive RefCause (s : ModuleView) (x : ModuleName) (span : Span) : Failure → Prop where
  | unknown : s.imports.isQualifier x = false → s.imports.isOpened x = false →
      RefCause s x span (.unknownExport s.module span .module x.text)
  | conflict {kind : NameKind} {key : QualifiedName} {records : List ImportRecord} :
      s.imports.get? kind key = some records → s.belongs x key records →
      RefCause s x span ((s.site span kind key.name).conflict records)
  | defect {d : Defect} : Cause s (.internal d) → RefCause s x span (.internal d)

theorem RefCause.cause {e : Failure} (h : s.RefCause x span e) : s.Cause e := by
  cases h with
  | unknown => exact .own rfl
  | conflict => exact .own rfl
  | defect h => exact h

theorem failsOnly_settle {kind : NameKind} {key : QualifiedName} {records : List ImportRecord}
    (h : s.imports.get? kind key = some records) (hb : s.belongs x key records) :
    FailsOnly (s.RefCause x span) ((s.site span kind key.name).settle records).result := by
  intro e he
  rcases UseSite.settle_eq_error he with ⟨rfl, rfl⟩ | ⟨-, rfl, -⟩
  · exact .defect (.noRecords h)
  · exact .conflict h hb

theorem failsOnly_visible {kind : NameKind} :
    FailsOnly (s.RefCause x span) (s.visible x span kind).result := by
  rw [visible, Logged.result_bind, Logged.result_mapM]
  refine .bind (.mapM fun k hk => ?_) fun _ _ => .ok _
  obtain ⟨hk, hb⟩ := List.mem_filter.1 hk
  rw [Logged.result_bind]
  refine .bind (failsOnly_settle ?_ hb) fun _ _ => .ok _
  exact ExtTreeMap.mem_toList_iff_getElem?_eq_some.1 hk

theorem failsOnly_visibleConstructors {ns : Namespace} :
    FailsOnly (s.RefCause x span) (s.visibleConstructors x span ns).result := by
  cases ns with
  | type => exact failsOnly_visible
  | _ => exact .ok _

/-- A record fails to be taken over when its module or the name in it is not there. -/
theorem failsOnly_reexport {constructors : List ImportRecord} {ns : Namespace} {key : QualifiedName}
    {records : List ImportRecord} {r : ImportRecord} (hk : s.imports.get? ns key = some records)
    (hr : r ∈ records) (hm : r.module ≠ s.module) :
    FailsOnly (s.RefCause x span) (s.reexport constructors r ns) := by
  rw [reexport, Environment.expect]
  cases hy : s.env.get? r.module with
  | none => exact .error (.defect (.missingModule hk hr hm hy))
  | some y =>
    refine .bind (.ok y) fun z hz => ?_
    obtain rfl := Except.ok.inj hz
    split
    next => exact .ok _
    next hn => exact .error (.defect (.notExported hk hr hm hy hn))

theorem failsOnly_moduleTable (hx : x ≠ s.module) (ns : Namespace) :
    FailsOnly (s.RefCause x span) (s.moduleTable x span ns).result := by
  rw [moduleTable, Logged.result_bind]
  refine .bind failsOnly_visible fun records hrec => ?_
  rw [Logged.result_bind]
  refine .bind failsOnly_visibleConstructors fun constructors _ => ?_
  rw [Logged.result_foldlM]
  refine .foldlM fun t r hr => ?_
  obtain ⟨key, hp⟩ := (mem_visible hrec).1 hr
  obtain ⟨known, hk, hmem, hm⟩ := hp.exists_mem hx
  rw [Logged.result_bind]
  exact .bind (failsOnly_reexport hk hmem hm) fun _ _ => .ok _

theorem failsOnly_ofTablesM {P : Failure → Prop} {t : (ns : Namespace) → Outcome (Table ns)}
    (h : ∀ ns, FailsOnly P (t ns).result) : FailsOnly P (Interface.ofTablesM t).result := by
  simp only [Interface.ofTablesM, Logged.result_bind]
  exact .bind (h _) fun _ _ => .bind (h _) fun _ _ => .bind (h _) fun _ _ => .bind (h _) fun _ _ =>
    .bind (h _) fun _ _ => .ok _

theorem failsOnly_moduleInterface (hx : x ≠ s.module) :
    FailsOnly (s.RefCause x span) (s.moduleInterface x span).result := by
  unfold moduleInterface
  split
  next => exact failsOnly_ofTablesM (failsOnly_moduleTable hx)
  next h =>
    rw [Bool.or_eq_true, not_or, Bool.not_eq_true, Bool.not_eq_true] at h
    exact .error (.unknown h.1 h.2)

/-- What a failure of a ref comes from, which is then one to another module. -/
def FailsAt (s : ModuleView) (r : ExportRef) (e : Failure) : Prop :=
  ∃ x, r.item = .module x ∧ x ≠ s.module ∧ s.RefCause x r.span e

theorem failsOnly_addRef {candidate acc : Interface} {r : ExportRef} :
    FailsOnly (s.FailsAt r) (s.addRef candidate acc r).result := by
  unfold addRef
  split
  next => exact .ok _
  next x hi =>
    split
    next => exact .ok _
    next hx =>
      rw [Logged.result_bind]
      refine .bind ((failsOnly_moduleInterface hx).imp fun e he => ?_) fun _ _ => .ok _
      exact ⟨x, ExportItem.module?_eq_some_iff.1 hi, hx, he⟩

theorem failsOnly_complete {candidate narrowed : Interface} {refs : List ExportRef} :
    FailsOnly (fun e => ∃ r ∈ refs, s.FailsAt r e) (s.complete candidate narrowed refs).result := by
  rw [complete, Logged.result_foldlM]
  exact .foldlM fun _ r hr => failsOnly_addRef.imp fun e he => ⟨r, hr, he⟩

end ModuleView

namespace ModuleSource
variable {m : ModuleSource} {env : Environment} {settings : Settings}

/-- A resolution fails only as narrowing and as the refs to other modules do. -/
theorem failsOnly_resolve_of {P : Failure → Prop}
    (hnarrow : ∀ refs, m.exportList = some refs → FailsOnly P (m.candidate.narrow m.name refs))
    (hrefs : ∀ refs, m.exportList = some refs →
      ∀ r ∈ refs, ∀ e, (m.scope env settings).FailsAt r e → P e) :
    FailsOnly P (m.resolve env settings).result := by
  unfold resolve
  split
  next => exact .ok _
  next refs hlist =>
    rw [Logged.result_bind]
    refine .bind (hnarrow refs hlist) fun narrowed _ => ?_
    rw [Logged.result_bind]
    refine .bind (ModuleView.failsOnly_complete.imp ?_) fun y _ => ?_
    · intro e ⟨r, hr, he⟩
      exact hrefs refs hlist r hr e he
    · split <;> exact .ok _

/-- All the ways in which a resolution can fail. -/
theorem failsOnly_resolve :
    FailsOnly (m.scope env settings).Cause (m.resolve env settings).result := by
  refine failsOnly_resolve_of (fun refs _ => ?_) fun refs _ r _ e he => ?_
  · exact Interface.fault_of_narrow.imp fun _ he => .own he.module?_eq
  · obtain ⟨x, -, -, he⟩ := he
    exact he.cause

end ModuleSource

namespace Imports

/-- There is a record under every key. -/
def Recorded (i : Imports) : Prop :=
  ∀ kind key records, i.get? kind key = some records → records ≠ []

/-- Every record that is not of `m` itself names something that its module in `env` exports. -/
def Validated (i : Imports) (m : ModuleName) (env : Environment) : Prop :=
  ∀ (ns : Namespace) key records, i.get? ns key = some records → ∀ r ∈ records, r.module ≠ m →
    ∃ y, env.get? r.module = some y ∧ y.contains ns r.name

/-- The tables that come of adding records one at a time. -/
def ofRecords (opened : ModuleSet) (records : List (NameKind × QualifiedName × ImportRecord)) :
    Imports :=
  records.foldl (fun i e => i.append e.1 e.2.1 [e.2.2]) { unqualified := opened }

variable {i : Imports} {m : ModuleName} {env : Environment}

instance : Decidable i.Recorded := decidable_of_iff _ forall_kind_get?_iff.symm

theorem validated_iff : i.Validated m env ↔ ∀ ns ∈ Namespace.all, ∀ e ∈ (i.table ns).toList,
    ∀ r ∈ e.2, r.module ≠ m → (env.get? r.module).any (·.contains ns r.name) := by
  simp only [Option.any_eq_true, Namespace.mem_all, forall_const, Validated]
  exact forall_congr' fun ns => forall_get?_iff

instance : Decidable (i.Validated m env) := decidable_of_iff _ validated_iff.symm

theorem Recorded.append (h : i.Recorded) (k : NameKind) (key : QualifiedName) (r : ImportRecord) :
    (i.append k key [r]).Recorded := by
  by_cases hk : k = .module
  · subst hk
    exact h
  intro kind other records hr
  rw [get?_append i hk] at hr
  split at hr
  · obtain rfl := Option.some.inj hr
    simp
  · exact h kind other records hr

theorem recorded_ofRecords (opened : ModuleSet)
    (records : List (NameKind × QualifiedName × ImportRecord)) :
    (ofRecords opened records).Recorded := by
  refine List.foldlRecOn (motive := Recorded) records _ ?_ fun i hi e _ => hi.append _ _ _
  intro kind key none hn
  cases kind with
  | inNamespace ns => cases ns <;> simp [get?, table] at hn
  | _ => simp [get?, table] at hn

end Imports

theorem Failure.isDefect_of_module? {e : Failure} {m : ModuleName} (h : e.module? = some m) :
    e.isDefect = false := by
  cases e with
  | internal d => cases h
  | _ => rfl

namespace ModuleSource

/-- Imports made by adding records have one under every key. With a record under every key, and with
records that were validated, a resolution fails only with faults of its own module. -/
theorem module?_of_validated : (∀ opened records, (Imports.ofRecords opened records).Recorded) ∧
    ∀ (m : ModuleSource) (env : Environment) (settings : Settings), m.imports.Recorded →
      m.imports.Validated m.name env → ∀ e, (m.resolve env settings).result = .error e →
        e.isDefect = false ∧ (∀ ms, e ≠ .circularDependency ms) ∧ e.module? = some m.name := by
  refine ⟨Imports.recorded_ofRecords, fun m env settings hr hv e he => ?_⟩
  have hm : e.module? = some m.name := by
    cases failsOnly_resolve e he with
    | own h => exact h
    | noRecords hk => exact absurd rfl (hr _ _ _ hk)
    | missingModule hk hmem hne hn =>
      obtain ⟨y, hy, -⟩ := hv _ _ _ hk _ hmem hne
      simp [scope, hy] at hn
    | notExported hk hmem hne hy hn =>
      obtain ⟨z, hz, hc⟩ := hv _ _ _ hk _ hmem hne
      obtain rfl := Option.some.inj (hz.symm.trans hy)
      simp [Interface.contains, hn] at hc
  refine ⟨Failure.isDefect_of_module? hm, ?_, hm⟩
  rintro ms rfl
  cases hm

/-- The module `M` opens `A` and `B` for the same name, and has a constructor from nowhere. -/
def sampleClash : ModuleSource where
  name := ⟨"M"⟩
  imports :=
    let opened (m name : String) : ImportRecord := ⟨⟨m⟩, name, ⟨m⟩, .null, .implicit⟩
    .ofRecords ((∅ : ModuleSet).insert ⟨"A"⟩ |>.insert ⟨"B"⟩) [
      (.inNamespace .value, ⟨none, "g"⟩, opened "A" "g"),
      (.inNamespace .value, ⟨none, "g"⟩, opened "B" "g"),
      (.dataConstructor, ⟨none, "X"⟩, opened "Nowhere" "X")]
  exportList := some [⟨.null, .module ⟨"A"⟩⟩]

def sampleClashEnvironment : Environment where
  modules := ({} : ModuleMap Interface).insert ⟨"A"⟩ (.candidate ⟨"A"⟩ [.value "g"])
    |>.insert ⟨"B"⟩ (.candidate ⟨"B"⟩ [.value "g"])

theorem module?_of_validated_sampleClash : sampleClash.imports.Recorded ∧
    sampleClash.imports.Validated ⟨"M"⟩ sampleClashEnvironment ∧
    ∃ e, (sampleClash.resolve sampleClashEnvironment {}).result = .error e ∧
      e.module? = some ⟨"M"⟩ := by
  have hr : sampleClash.imports.Recorded := module?_of_validated.1 _ _
  have hv : sampleClash.imports.Validated ⟨"M"⟩ sampleClashEnvironment := by decide +kernel
  have he : (sampleClash.resolve sampleClashEnvironment {}).result =
      .error (.importConflict ⟨"M"⟩ .null (.inNamespace .value) "g" [⟨"A"⟩, ⟨"B"⟩]) := by cbv
  exact ⟨hr, hv, _, he, (module?_of_validated.2 sampleClash _ {} hr hv _ he).2.2⟩

end ModuleSource

end ModuleExports
