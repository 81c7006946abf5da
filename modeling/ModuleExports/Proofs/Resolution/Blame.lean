import Mathlib
import ModuleExports.Proofs.Resolution.Constructors
import ModuleExports.Proofs.Resolution.Failures

/-!
Where in the export list a failure is reported. Main statement: it is reported at a ref that
mentions what is at fault, but for an unknown constructor of a type that several refs list, which is
reported at the first of them.
-/
namespace ModuleExports
open ExportRef

namespace ModuleView
variable {s : ModuleView} {r : ExportRef} {refs : List ExportRef} {candidate : Interface}
  {e : Failure}

/-- The failure is reported at a ref that has to do with it. -/
inductive Blames (s : ModuleView) (refs : List ExportRef) : Failure → Prop where
  | unknownExport {r : ExportRef} {kind : NameKind} {n : String} : r ∈ refs →
      r.item.key = ⟨kind, n⟩ → Blames s refs (.unknownExport s.module r.span kind n)
  /-- The first ref to a type answers for all, and so for itself if there is no other. -/
  | unknownConstructor {r : ExportRef} {n c : String} : first? refs n = some r →
      ListsConstructor refs n c →
      (refs.countP (·.item.key == ⟨Namespace.type, n⟩) = 1 → c ∈ r.item.listed) →
      Blames s refs (.unknownConstructor s.module r.span n c)
  | importConflict {r : ExportRef} {x : ModuleName} {kind : NameKind} {key : QualifiedName}
      {records : List ImportRecord} {homes : List ModuleName} : r ∈ refs → r.item = .module x →
      x ≠ s.module → s.imports.get? kind key = some records → s.belongs x key records →
      Blames s refs (.importConflict s.module r.span kind key.name homes)

/-- What a failure of refs that are narrowed by is reported at. -/
theorem blames_of_fault (h : candidate.Fault s.module refs e) : s.Blames refs e := by
  cases h with
  | unlisted hr hkey _ => exact .unknownExport hr hkey
  | unknownConstructor hr hlisted _ _ =>
    exact .unknownConstructor hr hlisted (mem_listed_of_countP hr hlisted)

theorem blames_of_failsAt (hr : r ∈ refs) (h : s.FailsAt r e) (hd : e.isDefect = false) :
    s.Blames refs e := by
  obtain ⟨x, hi, hx, hcause⟩ := h
  cases hcause with
  | unknown => exact .unknownExport hr (by rw [hi]; rfl)
  | conflict hk hb => exact .importConflict hr hi hx hk hb
  | defect => cases hd

end ModuleView

namespace ModuleSource
variable {m : ModuleSource} {env : Environment} {settings : Settings} {e : Failure}

/-- Every failure that is not a defect is reported at a ref of the export list that has to do with
it. -/
theorem blames_of_resolve (h : (m.resolve env settings).result = .error e)
    (hd : e.isDefect = false) : (m.scope env settings).Blames m.refs e := by
  have hblames : FailsOnly (fun e => e.isDefect = false → (m.scope env settings).Blames m.refs e)
      (m.resolve env settings).result := by
    refine failsOnly_resolve_of (fun refs hlist => ?_) fun refs hlist r hr e he hd => ?_
    · rw [refs_eq hlist]
      exact Interface.fault_of_narrow.imp fun e he _ => ModuleView.blames_of_fault he
    · rw [refs_eq hlist]
      exact ModuleView.blames_of_failsAt hr he hd
  exact hblames e h hd

/-- The module `M` lists with `T` a constructor that it does not have, on the second line. -/
def sampleMisspelt : ModuleSource where
  name := ⟨"M"⟩
  declarations := [.data "T" ["A"], .value "f"]
  exportList := some [⟨⟨⟨1, 1⟩, ⟨1, 2⟩⟩, .value "f"⟩,
    ⟨⟨⟨2, 1⟩, ⟨2, 12⟩⟩, .type "T" (some ["A", "Bogus"])⟩]

theorem blames_of_resolve_sampleMisspelt : ∃ span,
    (sampleMisspelt.resolve ⟨∅⟩ {}).result = .error (.unknownConstructor ⟨"M"⟩ span "T" "Bogus") ∧
    ∃ r ∈ sampleMisspelt.refs, r.span = span ∧ "Bogus" ∈ r.item.listed := by
  obtain ⟨span, he⟩ : ∃ span, (sampleMisspelt.resolve ⟨∅⟩ {}).result =
      .error (.unknownConstructor ⟨"M"⟩ span "T" "Bogus") := ⟨⟨⟨2, 1⟩, ⟨2, 12⟩⟩, by cbv⟩
  refine ⟨span, he, ?_⟩
  cases blames_of_resolve he rfl with
  | unknownConstructor hr _ hone =>
    exact ⟨_, (mem_of_first? hr).1, rfl, hone (by decide)⟩

/-- The module `M` lists `T` twice, the second time with a constructor that it does not have. -/
def sampleTwice : ModuleSource where
  name := ⟨"M"⟩
  declarations := [.data "T" ["A"]]
  exportList := some [⟨⟨⟨1, 1⟩, ⟨1, 5⟩⟩, .type "T" (some ["A"])⟩,
    ⟨⟨⟨2, 1⟩, ⟨2, 9⟩⟩, .type "T" (some ["Bogus"])⟩]

theorem not_mem_listed_sampleTwice : ∃ span,
    (sampleTwice.resolve ⟨∅⟩ {}).result = .error (.unknownConstructor ⟨"M"⟩ span "T" "Bogus") ∧
    ∀ r ∈ sampleTwice.refs, r.span = span → "Bogus" ∉ r.item.listed := by
  have he : (sampleTwice.resolve ⟨∅⟩ {}).result =
      .error (.unknownConstructor ⟨"M"⟩ ⟨⟨1, 1⟩, ⟨1, 5⟩⟩ "T" "Bogus") := by cbv
  exact ⟨_, he, by decide⟩

end ModuleSource

end ModuleExports
