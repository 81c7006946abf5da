import ModuleExports.Proofs.Outcome.Result
import ModuleExports.Resolution

/-!
What the settings do to a resolution. Main statement: they do nothing to its result, and its log is
what it would be if all warnings were reported, without those that the settings leave out.
-/
namespace ModuleExports

namespace Logged
variable {ω ε α β : Type} (keep : ω → Bool)

/-- The computation with only those entries in its log that pass the test. -/
def keeping (x : Logged ω ε α) : Logged ω ε α := ⟨x.log.filter keep, x.result⟩

@[simp] theorem log_keeping (x : Logged ω ε α) : (x.keeping keep).log = x.log.filter keep := rfl

@[simp] theorem result_keeping (x : Logged ω ε α) : (x.keeping keep).result = x.result := rfl

@[simp] theorem keeping_ofExcept (r : Except ε α) :
    (ofExcept r : Logged ω ε α).keeping keep = ofExcept r := rfl

@[simp] theorem keeping_pure (a : α) : (pure a : Logged ω ε α).keeping keep = pure a := rfl

@[simp] theorem keeping_emitAll (ws : List ω) :
    (emitAll ws : Logged ω ε Unit).keeping keep = emitAll (ws.filter keep) := rfl

theorem keeping_bind (x : Logged ω ε α) (f : α → Logged ω ε β) :
    (x >>= f).keeping keep = x.keeping keep >>= fun a => (f a).keeping keep := by
  cases hx : x.result with
  | error e =>
    rw [bind_of_error hx, bind_of_error (x := x.keeping keep) hx]
    rfl
  | ok a =>
    rw [bind_of_ok hx, bind_of_ok (x := x.keeping keep) hx]
    simp [keeping]

theorem keeping_mapM (f : α → Logged ω ε β) (xs : List α) :
    (xs.mapM f).keeping keep = xs.mapM fun a => (f a).keeping keep := by
  induction xs with
  | nil => rfl
  | cons x xs ih => simp only [List.mapM_cons, keeping_bind, keeping_pure, ih]

theorem keeping_foldlM (f : β → α → Logged ω ε β) (xs : List α) (b : β) :
    (xs.foldlM f b).keeping keep = xs.foldlM (fun b a => (f b a).keeping keep) b := by
  induction xs generalizing b with
  | nil => rfl
  | cons x xs ih => simp only [List.foldlM_cons, keeping_bind, ih]

end Logged

/-- Whether the settings report warnings like this one. -/
def Settings.reports (c : Settings) : Warning → Bool
  | .duplicateRef .. => c.reportDuplicateRefs
  | .shadowing .. => c.reportShadowing

/-- The settings report every warning. -/
def Settings.ReportsAll (c : Settings) : Prop := c.reportDuplicateRefs ∧ c.reportShadowing

theorem Settings.ReportsAll.reports {c : Settings} (h : c.ReportsAll) (w : Warning) :
    c.reports w := by
  cases w with
  | duplicateRef => exact h.1
  | shadowing => exact h.2

theorem Interface.keeping_ofTablesM {ω ε : Type} (keep : ω → Bool)
    (t : (ns : Namespace) → Logged ω ε (Table ns)) :
    (ofTablesM t).keeping keep = ofTablesM fun ns => (t ns).keeping keep := by
  simp only [ofTablesM, Logged.keeping_bind, Logged.keeping_pure]

namespace ModuleView
variable {env : Environment} {m x : ModuleName} {i : Imports} {c d : Settings} {span : Span}
  {kind : NameKind}

section Reporting
variable (hd : d.ReportsAll)
include hd

theorem settle_keeping (n : String) (records : List ImportRecord) :
    ((⟨env, m, i, c⟩ : ModuleView).site span kind n).settle records =
      (((⟨env, m, i, d⟩ : ModuleView).site span kind n).settle records).keeping c.reports := by
  cases records with
  | nil => rfl
  | cons first rest =>
    simp only [UseSite.settle, site, hd.2, Bool.true_and]
    by_cases hagree : rest.all (·.home == first.home)
    · simp [hagree]
    · simp only [hagree, Bool.false_eq_true, ↓reduceIte]
      split
      next chosen _ =>
        cases chosen.style == .explicit with
        | false => simp
        | true =>
          have hreport (site : UseSite) :
              c.reports (site.shadowing (first :: rest) chosen) = c.reportShadowing := rfl
          simp only [Bool.and_true, ↓reduceIte, Logged.emit, Logged.keeping_bind,
            Logged.keeping_emitAll, Logged.keeping_pure]
          cases hc : c.reportShadowing with
          | false =>
            rw [List.filter_cons_of_neg (by simp [hreport, hc])]
            rfl
          | true =>
            rw [List.filter_cons_of_pos (by simp [hreport, hc])]
            rfl
      next => rfl

theorem visible_keeping : (⟨env, m, i, c⟩ : ModuleView).visible x span kind =
    ((⟨env, m, i, d⟩ : ModuleView).visible x span kind).keeping c.reports := by
  simp only [visible, Logged.keeping_bind, Logged.keeping_mapM, Logged.keeping_pure,
    ← settle_keeping hd]
  rfl

theorem visibleConstructors_keeping (ns : Namespace) :
    (⟨env, m, i, c⟩ : ModuleView).visibleConstructors x span ns =
      ((⟨env, m, i, d⟩ : ModuleView).visibleConstructors x span ns).keeping c.reports := by
  cases ns with
  | type => exact visible_keeping hd
  | _ => rfl

theorem moduleTable_keeping (ns : Namespace) :
    (⟨env, m, i, c⟩ : ModuleView).moduleTable x span ns =
      ((⟨env, m, i, d⟩ : ModuleView).moduleTable x span ns).keeping c.reports := by
  simp only [moduleTable, Logged.keeping_bind, Logged.keeping_foldlM, Logged.keeping_pure,
    Logged.keeping_ofExcept, ← visible_keeping hd, ← visibleConstructors_keeping hd]
  rfl

theorem moduleInterface_keeping : (⟨env, m, i, c⟩ : ModuleView).moduleInterface x span =
    ((⟨env, m, i, d⟩ : ModuleView).moduleInterface x span).keeping c.reports := by
  unfold moduleInterface
  dsimp only
  split
  · rw [Interface.keeping_ofTablesM, funext (moduleTable_keeping hd)]
  · rfl

theorem addRef_keeping (candidate acc : Interface) (r : ExportRef) :
    (⟨env, m, i, c⟩ : ModuleView).addRef candidate acc r =
      ((⟨env, m, i, d⟩ : ModuleView).addRef candidate acc r).keeping c.reports := by
  unfold addRef
  split
  · rfl
  · dsimp only
    split
    · rfl
    · rw [Logged.keeping_bind, moduleInterface_keeping hd]
      rfl

/-- Completing a table under other settings changes no more than which warnings are reported. -/
theorem complete_keeping (candidate narrowed : Interface) (refs : List ExportRef) :
    (⟨env, m, i, c⟩ : ModuleView).complete candidate narrowed refs =
      ((⟨env, m, i, d⟩ : ModuleView).complete candidate narrowed refs).keeping c.reports := by
  simp only [complete, Logged.keeping_foldlM, ← addRef_keeping hd]

end Reporting

end ModuleView

namespace ExportRef
variable {m : ModuleName} {refs : List ExportRef} {c : Settings}

theorem reports_of_mem_duplicates {w : Warning} (hw : w ∈ duplicates m refs) :
    c.reports w = c.reportDuplicateRefs := by
  rw [duplicates, List.mem_mergeSort, List.mem_append] at hw
  rcases hw with hw | hw
  · obtain ⟨k, -, hk⟩ := List.mem_filterMap.1 hw
    split at hk
    · obtain rfl := Option.some.inj hk
      rfl
    · cases hk
  · obtain ⟨r, -, hr⟩ := List.mem_flatMap.1 hw
    obtain ⟨n, -, rfl⟩ := List.mem_map.1 hr
    rfl

theorem filter_duplicates : (duplicates m refs).filter c.reports =
    if c.reportDuplicateRefs then duplicates m refs else [] := by
  have hreports : ∀ w ∈ duplicates m refs, c.reports w = c.reportDuplicateRefs :=
    fun _ => reports_of_mem_duplicates
  split
  next h => exact List.filter_eq_self.2 fun w hw => (hreports w hw).trans h
  next h => exact List.filter_eq_nil_iff.2 fun w hw => by rwa [hreports w hw]

end ExportRef

/-- A resolution comes to the same under all settings, and logs under each what it would log if all
warnings were reported, without those that these settings leave out. -/
theorem ModuleSource.resolve_keeping {c d : Settings} (hd : d.ReportsAll) (m : ModuleSource)
    (env : Environment) : m.resolve env c = (m.resolve env d).keeping c.reports := by
  unfold resolve
  cases m.exportList with
  | none => rfl
  | some refs =>
    simp only [scope, hd.1, ↓reduceIte, Logged.keeping_bind, Logged.keeping_ofExcept,
      Logged.keeping_emitAll, Logged.keeping_pure, ExportRef.filter_duplicates,
      ModuleView.complete_keeping (c := c) hd]
    cases c.reportDuplicateRefs <;> rfl

end ModuleExports
