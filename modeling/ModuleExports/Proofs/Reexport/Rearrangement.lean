import ModuleExports.Proofs.Reexport.Precedence
import ModuleExports.Proofs.Reexport.Success

/-!
The order of the records under a visible name. Main statement: it decides neither whether an export
list can be resolved nor, where the module's own names have no import that shares their home, which
names with which homes are published. Which constructors are published it may decide through a
qualifier, unless what stands behind that under one name, with one home, is imported from one
module.
-/
namespace ModuleExports
open Std

namespace Imports
variable {i i' : Imports} {m x : ModuleName} {env : Environment} {kind : NameKind}
  {key : QualifiedName} {records : List ImportRecord}

/-- The same names are visible in both, each by the same records in some order. -/
structure Rearranged (i i' : Imports) : Prop where
  opened : i'.unqualified = i.unqualified
  records : ∀ kind key, Option.Rel List.Perm (i.get? kind key) (i'.get? kind key)

/-- No name of `m` itself is also imported with the same home. -/
def OwnApart (i : Imports) (m : ModuleName) : Prop :=
  ∀ kind key records, i.get? kind key = some records → UseSite.HomesAgree records →
    ∀ r ∈ records, r.module = m → ∀ t ∈ records, t.module = m

/-- What `x` qualifies under one name of the kind, with one home, is imported from one module. -/
def FromOne (i : Imports) (x : ModuleName) (kind : NameKind) : Prop :=
  ∀ key records, i.get? kind key = some records → key.module = some x →
    UseSite.HomesAgree records → ∀ r ∈ records, ∀ t ∈ records, r.module = t.module

instance : Decidable (i.OwnApart m) := decidable_of_iff _ forall_kind_get?_iff.symm

instance : Decidable (i.FromOne x kind) := decidable_of_iff _ forall_get?_iff.symm

/-- Every constructor's record leads to a type of its home in `env` that has the constructor. -/
def ConstructorsTruthful (i : Imports) (env : Environment) : Prop :=
  ∀ key records, i.get? .dataConstructor key = some records → ∀ r ∈ records,
    ∃ y n e, env.get? r.module = some y ∧ y.get? .type n = some e ∧ r.name ∈ e.constructors ∧
      e.origin.definedIn = r.home

namespace Rearranged

theorem symm (h : i.Rearranged i') : i'.Rearranged i := by
  refine ⟨h.opened.symm, fun kind key => ?_⟩
  have hk := h.records kind key
  revert hk
  rcases i.get? kind key with _ | records <;> rcases i'.get? kind key with _ | records'
  · simp
  · simp
  · simp
  · simpa using List.Perm.symm

variable (h : i.Rearranged i')
include h

theorem exists_perm (hk : i.get? kind key = some records) :
    ∃ records', i'.get? kind key = some records' ∧ records.Perm records' := by
  have hr := h.records kind key
  rw [hk] at hr
  cases hk' : i'.get? kind key with
  | none => simp [hk'] at hr
  | some records' => exact ⟨records', rfl, by simpa [hk'] using hr⟩

theorem isOpened_eq (x : ModuleName) : i'.isOpened x = i.isOpened x := by
  rw [isOpened, h.opened, isOpened]

theorem isQualifier_eq (x : ModuleName) : i'.isQualifier x = i.isQualifier x := by
  have imp {i i' : Imports} (h : i.Rearranged i') : i.isQualifier x → i'.isQualifier x := by
    simp only [isQualifier_iff]
    rintro ⟨kind, key, records, hk, hq⟩
    obtain ⟨records', hk', -⟩ := h.exists_perm hk
    exact ⟨kind, key, records', hk', hq⟩
  exact Bool.eq_iff_iff.2 ⟨imp h.symm, imp h⟩

theorem keepsNames (hn : i.KeepsNames) : i'.KeepsNames := by
  intro kind key records' hk' r hr
  obtain ⟨records, hk, hp⟩ := h.symm.exists_perm hk'
  exact hn kind key records hk r (hp.mem_iff.1 hr)

theorem truthful (ht : i.Truthful m env) : i'.Truthful m env := by
  intro ns key records' hk' r hr hm
  obtain ⟨records, hk, hp⟩ := h.symm.exists_perm hk'
  exact ht ns key records hk r (hp.mem_iff.1 hr) hm

theorem ownApart (ho : i.OwnApart m) : i'.OwnApart m := by
  intro kind key records' hk' hagree r hr hm t ht
  obtain ⟨records, hk, hp⟩ := h.symm.exists_perm hk'
  exact ho kind key records hk (hagree.perm hp) r (hp.mem_iff.1 hr) hm t (hp.mem_iff.1 ht)

theorem fromOne (hf : i.FromOne x kind) : i'.FromOne x kind := by
  intro key records' hk' hq hagree r hr t ht
  obtain ⟨records, hk, hp⟩ := h.symm.exists_perm hk'
  exact hf key records hk hq (hagree.perm hp) r (hp.mem_iff.1 hr) t (hp.mem_iff.1 ht)

end Rearranged

theorem Rearranged.refl (i : Imports) : i.Rearranged i := by
  refine ⟨rfl, fun kind key => ?_⟩
  cases i.get? kind key <;> simp

/-- Records can be added to a name in any order. -/
theorem Rearranged.append (h : i.Rearranged i') (k : NameKind) (key : QualifiedName)
    {rs rs' : List ImportRecord} (hp : rs.Perm rs') :
    (i.append k key rs).Rearranged (i'.append k key rs') := by
  by_cases hk : k = .module
  · subst hk
    exact h
  refine ⟨by simp [h.opened], fun kind other => ?_⟩
  · rw [get?_append i hk, get?_append i' hk]
    split
    · have hold : ((i.get? k key).getD []).Perm ((i'.get? k key).getD []) := by
        have hr := h.records k key
        revert hr
        rcases i.get? k key with _ | records <;> rcases i'.get? k key with _ | records' <;> simp
      exact .some (hold.append hp)
    · exact h.records kind other

end Imports

namespace ModuleView
variable {s : ModuleView} {i : Imports} {x : ModuleName} {span : Span} {kind : NameKind}
  {key : QualifiedName} {n : String}

section Rearranged
variable (h : s.imports.Rearranged i)
include h

theorem SettlesAll.rearranged (hs : s.SettlesAll x span kind) :
    (s.withImports i).SettlesAll x span kind := by
  intro key records' hk' hb
  obtain ⟨records, hk, hp⟩ := h.symm.exists_perm hk'
  have hany : (records.any fun r => r.module == x) = records'.any fun r => r.module == x :=
    hp.symm.any_eq
  have hb : s.belongs x key records := by
    simpa only [belongs, withImports, h.isQualifier_eq, hany] using hb
  obtain ⟨c, hc⟩ := hs key records hk hb
  obtain ⟨d, hd, -⟩ := UseSite.settle_perm hp.symm hc
  exact ⟨d, hd⟩

section Apart
variable (ho : s.imports.OwnApart s.module)
include ho

theorem Settles.rearranged {records : List ImportRecord} {c : ImportRecord}
    (hs : s.Settles span kind key records c) : ∃ records' d,
      (s.withImports i).Settles span kind key records' d ∧ records.Perm records' ∧
        d.home = c.home ∧ (d = c ∨ UseSite.HomesAgree records) := by
  obtain ⟨records', hk', hp⟩ := h.exists_perm hs.found
  obtain ⟨d, hd, hhome, hdc⟩ := UseSite.settle_perm hp hs.chosen
  have hforeign : d.module ≠ s.module := by
    rcases hdc with rfl | hagree
    · exact hs.foreign
    · intro hm
      exact hs.foreign (ho kind key records hs.found hagree d
        (hp.mem_iff.2 (UseSite.mem_of_settle hd)) hm c (UseSite.mem_of_settle hs.chosen))
  exact ⟨records', d, ⟨hk', hd, hforeign⟩, hp, hhome, hdc⟩

theorem InScopeFrom.rearranged {c : ImportRecord} (hc : s.InScopeFrom x span kind n c) :
    ∃ d, (s.withImports i).InScopeFrom x span kind n d ∧ d.home = c.home := by
  obtain ⟨records, hs, r, hr, hx, hh⟩ := hc
  obtain ⟨records', d, hs', hp, hhome, -⟩ := hs.rearranged h ho
  exact ⟨d, ⟨records', hs', r, hp.mem_iff.1 hr, hx, hh.trans hhome.symm⟩, hhome⟩

theorem InScopeBehind.rearranged {c : ImportRecord} (hc : s.InScopeBehind x span kind n c) :
    ∃ d, (s.withImports i).InScopeBehind x span kind n d ∧ d.home = c.home ∧
      (s.imports.FromOne x kind → d.module = c.module) := by
  obtain ⟨records, hs⟩ := hc
  obtain ⟨records', d, hs', hp, hhome, hdc⟩ := hs.rearranged h ho
  refine ⟨d, ⟨records', hs'⟩, hhome, fun hf => ?_⟩
  rcases hdc with rfl | hagree
  · rfl
  · exact hf _ records hs.found rfl hagree d
      (hp.mem_iff.2 (UseSite.mem_of_settle hs'.chosen)) c (UseSite.mem_of_settle hs.chosen)

/-- A ref publishes a record of the same home for each name, whatever the order. -/
theorem Publishes.rearranged {r : ImportRecord}
    (hr : s.Publishes x span kind (s.keyFor x n) r) :
    ∃ t, (s.withImports i).Publishes x span kind ((s.withImports i).keyFor x n) t ∧
      t.home = r.home ∧ (s.imports.FromOne x kind → t.module = r.module) := by
  by_cases hq : s.imports.isQualifier x
  · have hq' : (s.withImports i).imports.isQualifier x := (h.isQualifier_eq x).trans hq
    obtain ⟨t, ht, hhome, hone⟩ := ((publishes_behind hq).1 hr).rearranged h ho
    exact ⟨t, (publishes_behind hq').2 ht, hhome, hone⟩
  · have hq' : ¬ (s.withImports i).imports.isQualifier x :=
      fun h' => hq ((h.isQualifier_eq x).symm.trans h')
    obtain ⟨hx, c, hc, hcr⟩ := hr.inScopeFrom hq
    obtain ⟨d, hd, hdc⟩ := hc.rearranged h ho
    obtain ⟨t, ht, hx', htd⟩ := hd.exists_publishes hq'
    exact ⟨t, ht, htd.trans (hdc.trans hcr), fun _ => hx'.trans hx.symm⟩

theorem exists_publishes_rearranged {m : ModuleName} (hf : s.imports.FromOne x kind) :
    (∃ r, (s.withImports i).Publishes x span kind ((s.withImports i).keyFor x n) r ∧
      r.module = m) ↔ ∃ r, s.Publishes x span kind (s.keyFor x n) r ∧ r.module = m := by
  constructor
  · rintro ⟨r, hr, hm⟩
    obtain ⟨t, ht, -, hone⟩ :=
      Publishes.rearranged (s := s.withImports i) h.symm (h.ownApart ho) hr
    exact ⟨t, ht, (hone (h.fromOne hf)).trans hm⟩
  · rintro ⟨r, hr, hm⟩
    obtain ⟨t, ht, -, hone⟩ := hr.rearranged h ho
    exact ⟨t, ht, (hone hf).trans hm⟩

end Apart

theorem exists_moduleInterface_rearranged (ht : s.imports.Truthful s.module s.env)
    (hx : x ≠ s.module) (hy : ∃ y, (s.moduleInterface x span).result = .ok y) :
    ∃ y, ((s.withImports i).moduleInterface x span).result = .ok y := by
  rw [exists_moduleInterface_iff ht.validated hx] at hy
  obtain ⟨hknown, hnames, hconstructors⟩ := hy
  refine (exists_moduleInterface_iff (s := s.withImports i) (h.truthful ht).validated hx).2
    ⟨?_, fun ns => ?_, ?_⟩
  · simpa only [withImports, h.isQualifier_eq, h.isOpened_eq] using hknown
  · exact (hnames ns).rearranged h
  · exact hconstructors.rearranged h

/-- An entry of a table has its counterpart in the table of another order of the records. -/
theorem get?_moduleTable_rearranged (ho : s.imports.OwnApart s.module)
    (hn : s.imports.KeepsNames) (ht : s.imports.Truthful s.module s.env) (hx : x ≠ s.module)
    {ns : Namespace} {t u : Table ns} (ht' : (s.moduleTable x span ns).result = .ok t)
    (hu : ((s.withImports i).moduleTable x span ns).result = .ok u) {e : Entry ns}
    (he : t[n]? = some e) : ∃ d, u[n]? = some d ∧ d.origin.definedIn = e.origin.definedIn ∧
      (s.imports.FromOne x ns → s.imports.FromOne x .dataConstructor →
        d.constructors = e.constructors) := by
  have hn' := h.keepsNames hn
  have htr' := h.truthful ht
  -- From the entry to its record, from there to the one of the other order, and to its entry.
  obtain ⟨r, hr, horigin, y, f, keep, hy, hf, hkeep, hkeep'⟩ :=
    (get?_moduleTable_iff hn hx ht ht').1 he
  obtain ⟨r', hr', hhome, hone⟩ := hr.rearranged h ho
  obtain ⟨d, hd⟩ := Option.isSome_iff_exists.1
    ((contains_moduleTable_iff (s := s.withImports i) hn' hx hu).2 ⟨r', hr'⟩)
  obtain ⟨t', ht', horigin', y', f', keep', hy', hf', hkeepd, hkeepd'⟩ :=
    (get?_moduleTable_iff (s := s.withImports i) hn' hx htr' hu).1 hd
  obtain rfl := hr'.unique ht'
  refine ⟨d, hd, by rw [horigin, horigin', hhome], fun htypes hconstructors => ?_⟩
  have hm := hone htypes
  obtain rfl : y = y' := Option.some.inj (hy.symm.trans (hm ▸ hy'))
  obtain rfl : f = f' := Option.some.inj (hf.symm.trans hf')
  rw [hkeep, hkeepd]
  refine List.filter_congr fun c _ => Bool.eq_iff_iff.2 ?_
  rw [hkeep', hkeepd', hm]
  exact exists_publishes_rearranged h ho hconstructors

theorem map_moduleTable_rearranged (ho : s.imports.OwnApart s.module)
    (hn : s.imports.KeepsNames) (ht : s.imports.Truthful s.module s.env) (hx : x ≠ s.module)
    {ns : Namespace} {t u : Table ns} (ht' : (s.moduleTable x span ns).result = .ok t)
    (hu : ((s.withImports i).moduleTable x span ns).result = .ok u) :
    t[n]?.map (·.origin.definedIn) = u[n]?.map (·.origin.definedIn) ∧
      (s.imports.FromOne x ns → s.imports.FromOne x .dataConstructor →
        t[n]?.map Entry.constructors = u[n]?.map Entry.constructors) := by
  cases he : t[n]? with
  | none =>
    cases hd : u[n]? with
    | none => simp
    | some d =>
      obtain ⟨e, he', -⟩ := get?_moduleTable_rearranged (s := s.withImports i) h.symm
        (h.ownApart ho) (h.keepsNames hn) (h.truthful ht) hx hu ht' hd
      cases he.symm.trans he'
  | some e =>
    obtain ⟨d, hd, hhome, hconstructors⟩ := get?_moduleTable_rearranged h ho hn ht hx ht' hu he
    simp only [hd, Option.map_some, hhome, true_and]
    exact fun htypes hcs => congrArg some (hconstructors htypes hcs).symm

end Rearranged

variable {candidate narrowed : Interface} {refs : List ExportRef}

/-- Two views in which the refs to other modules alone come to the same agree on the whole list. -/
theorem map_get?_complete_congr {s' : ModuleView} {γ : Type} {ns : Namespace} {g : Entry ns → γ}
    {x y : Interface} (hx : (s.complete candidate narrowed refs).result = .ok x)
    (hy : (s'.complete candidate narrowed refs).result = .ok y) (hm : s'.module = s.module)
    (h : ∀ r ∈ s.foreignRefs refs, ∀ u v, (s.alone candidate r).result = .ok u →
      (s'.alone candidate r).result = .ok v → (u.get? ns n).map g = (v.get? ns n).map g) :
    (x.get? ns n).map g = (y.get? ns n).map g := by
  have hforeign : s'.foreignRefs refs = s.foreignRefs refs := by rw [foreignRefs, hm, foreignRefs]
  have hown : s'.listsItself refs = s.listsItself refs := by rw [listsItself, hm, listsItself]
  have hlast : (s.lastPublished? candidate refs ns n).map g =
      (s'.lastPublished? candidate refs ns n).map g := by
    rw [lastPublished?, lastPublished?, hforeign, List.map_findSome?, List.map_findSome?,
      ← List.head?_filterMap, ← List.head?_filterMap]
    refine congrArg List.head? (List.filterMap_congr fun r hr => ?_)
    have hr := List.mem_reverse.1 hr
    obtain ⟨u, hu⟩ := exists_complete_iff.1 ⟨x, hx⟩ r hr
    obtain ⟨v, hv⟩ := exists_complete_iff.1 ⟨y, hy⟩ r (hforeign ▸ hr)
    simpa [hu, hv, Except.toOption] using h r hr u v hu hv
  rw [get?_complete hx, get?_complete hy, hown]
  simp only [Option.map_or, hlast]

theorem exists_of_mem_foreignRefs {r : ExportRef} (h : r ∈ s.foreignRefs refs) :
    ∃ a, r.item = .module a ∧ a ≠ s.module := by
  obtain ⟨-, ha⟩ := List.mem_filter.1 h
  cases hr : r.item with
  | module a => exact ⟨a, rfl, by simpa [hr, ExportItem.module?] using ha⟩
  | _ => simp [hr, ExportItem.module?] at ha

section Whole
variable (h : s.imports.Rearranged i) (ht : s.imports.Truthful s.module s.env)
include h ht

theorem exists_complete_rearranged
    (hx : ∃ x, (s.complete candidate narrowed refs).result = .ok x) :
    ∃ y, ((s.withImports i).complete candidate narrowed refs).result = .ok y := by
  rw [exists_complete_iff] at hx ⊢
  intro r hr
  obtain ⟨a, ha, hne⟩ := exists_of_mem_foreignRefs hr
  have ha : r.item.module? = some a := by rw [ha, ExportItem.module?]
  have hr := hx r hr
  rw [alone_of_foreign (s := s) ha hne] at hr
  rw [alone_of_foreign (s := s.withImports i) ha hne]
  exact exists_moduleInterface_rearranged h ht hne hr

theorem map_get?_alone_rearranged (hn : s.imports.KeepsNames) (ho : s.imports.OwnApart s.module)
    {r : ExportRef} (hr : r ∈ s.foreignRefs refs) {u v : Interface}
    (hu : (s.alone candidate r).result = .ok u)
    (hv : ((s.withImports i).alone candidate r).result = .ok v) (ns : Namespace) (n : String) :
    ∃ a, r.item = .module a ∧
      (u.get? ns n).map (·.origin.definedIn) = (v.get? ns n).map (·.origin.definedIn) ∧
      (s.imports.FromOne a ns → s.imports.FromOne a .dataConstructor →
        (u.get? ns n).map Entry.constructors = (v.get? ns n).map Entry.constructors) := by
  obtain ⟨a, ha, hne⟩ := exists_of_mem_foreignRefs hr
  have ha' : r.item.module? = some a := by rw [ha, ExportItem.module?]
  rw [alone_of_foreign (s := s) ha' hne] at hu
  rw [alone_of_foreign (s := s.withImports i) ha' hne] at hv
  exact ⟨a, ha, map_moduleTable_rearranged h ho hn ht hne (moduleTable_of_moduleInterface hu ns)
    (moduleTable_of_moduleInterface hv ns)⟩

end Whole

/-- The order of the records of a name settles nothing about an export list but the modules that
names are published through, and what comes with those. -/
theorem complete_rearranged (hn : s.imports.KeepsNames) (ht : s.imports.Truthful s.module s.env)
    (h : s.imports.Rearranged i) :
    ((∃ x, (s.complete candidate narrowed refs).result = .ok x) ↔
      ∃ y, ((s.withImports i).complete candidate narrowed refs).result = .ok y) ∧
    (s.imports.OwnApart s.module → ∀ x y, (s.complete candidate narrowed refs).result = .ok x →
      ((s.withImports i).complete candidate narrowed refs).result = .ok y →
        (∀ ns n, (x.origin? ns n).map Origin.definedIn = (y.origin? ns n).map Origin.definedIn) ∧
        ((∀ r ∈ refs, ∀ a, r.item = .module a →
            s.imports.FromOne a (.inNamespace .type) ∧ s.imports.FromOne a .dataConstructor) →
          ∀ n, x.constructors? n = y.constructors? n)) := by
  refine ⟨⟨exists_complete_rearranged h ht, ?_⟩, fun ho x y hx hy => ⟨fun ns n => ?_, ?_⟩⟩
  · exact exists_complete_rearranged (s := s.withImports i) h.symm (h.truthful ht)
  · simp only [Interface.origin?, Option.map_map]
    refine map_get?_complete_congr hx hy rfl fun r hr u v hu hv => ?_
    obtain ⟨a, -, hhome, -⟩ := map_get?_alone_rearranged h ht hn ho hr hu hv ns n
    exact hhome
  · intro hone n
    refine map_get?_complete_congr hx hy rfl fun r hr u v hu hv => ?_
    obtain ⟨a, ha, -, hconstructors⟩ := map_get?_alone_rearranged h ht hn ho hr hu hv .type n
    obtain ⟨htypes, hcs⟩ := hone r (List.mem_of_mem_filter hr) a ha
    exact hconstructors htypes hcs

/-- The module `M` sees a type of `H` and its constructor through both `A` and `B` behind `X`, and
through `A` alone, with a function of both, behind `Y`. Some records stand in the given order. -/
def sampleShared (order : List ImportRecord → List ImportRecord) : ModuleView where
  env :=
    let shared := (∅ : Interface).insert .type "T" ⟨["C"], ⟨⟨"H"⟩, some ⟨"H"⟩⟩⟩
      |>.insert .value "g" (.plain ⟨⟨"H"⟩, some ⟨"H"⟩⟩)
    ⟨({} : ModuleMap Interface).insert ⟨"A"⟩ shared |>.insert ⟨"B"⟩ shared⟩
  module := ⟨"M"⟩
  imports :=
    let via (m name : String) : ImportRecord := ⟨⟨m⟩, name, ⟨"H"⟩, .null, .implicit⟩
    ({} : Imports).append (.inNamespace .type) ⟨some ⟨"X"⟩, "T"⟩ [via "A" "T", via "B" "T"]
      |>.append .dataConstructor ⟨some ⟨"X"⟩, "C"⟩ (order [via "A" "C", via "B" "C"])
      |>.append (.inNamespace .type) ⟨some ⟨"Y"⟩, "T"⟩ [via "A" "T"]
      |>.append .dataConstructor ⟨some ⟨"Y"⟩, "C"⟩ [via "A" "C"]
      |>.append (.inNamespace .value) ⟨some ⟨"Y"⟩, "g"⟩ (order [via "A" "g", via "B" "g"])
  settings := {}

theorem rearranged_sampleShared :
    (sampleShared id).imports.Rearranged (sampleShared List.reverse).imports := by
  have hrefl := Imports.Rearranged.refl {}
  simp only [sampleShared, id_eq]
  exact hrefl.append _ _ (.refl _) |>.append _ _ (List.reverse_perm _).symm
    |>.append _ _ (.refl _) |>.append _ _ (.refl _) |>.append _ _ (List.reverse_perm _).symm

/-- Behind `Y`, only the module that the function is published through depends on the order. -/
theorem complete_rearranged_sampleShared : ∃ x y : Interface,
    ((sampleShared id).complete ∅ ∅ [⟨.null, .module ⟨"Y"⟩⟩]).result = .ok x ∧
    ((sampleShared List.reverse).complete ∅ ∅ [⟨.null, .module ⟨"Y"⟩⟩]).result = .ok y ∧
    x.origin? .value "g" = some ⟨⟨"H"⟩, some ⟨"A"⟩⟩ ∧
    y.origin? .value "g" = some ⟨⟨"H"⟩, some ⟨"B"⟩⟩ ∧
    (∀ ns n, (x.origin? ns n).map Origin.definedIn = (y.origin? ns n).map Origin.definedIn) ∧
    ∀ n, x.constructors? n = y.constructors? n := by
  obtain ⟨x, hx, hxg⟩ : ∃ x,
      ((sampleShared id).complete ∅ ∅ [⟨.null, .module ⟨"Y"⟩⟩]).result = .ok x ∧
        x.origin? .value "g" = some ⟨⟨"H"⟩, some ⟨"A"⟩⟩ := except_map_eq_ok.1 (by cbv)
  obtain ⟨y, hy, hyg⟩ : ∃ y,
      ((sampleShared List.reverse).complete ∅ ∅ [⟨.null, .module ⟨"Y"⟩⟩]).result = .ok y ∧
        y.origin? .value "g" = some ⟨⟨"H"⟩, some ⟨"B"⟩⟩ := except_map_eq_ok.1 (by cbv)
  have hn : (sampleShared id).imports.KeepsNames := by decide +kernel
  have ht : (sampleShared id).imports.Truthful ⟨"M"⟩ (sampleShared id).env := by decide +kernel
  have ho : (sampleShared id).imports.OwnApart ⟨"M"⟩ := by decide +kernel
  obtain ⟨hhome, hconstructors⟩ :=
    (complete_rearranged hn ht rearranged_sampleShared).2 ho x y hx hy
  refine ⟨x, y, hx, hy, hxg, hyg, hhome, hconstructors fun r hr a ha => ?_⟩
  obtain rfl := List.mem_singleton.1 hr
  obtain rfl := ExportItem.module.inj ha
  exact ⟨by decide +kernel, by decide +kernel⟩

/-- Behind `X`, the type and its constructor are settled apart from each other, and meet in one
order only. -/
theorem constructors_sampleShared_ne : (sampleShared id).imports.KeepsNames ∧
    (sampleShared id).imports.Truthful ⟨"M"⟩ (sampleShared id).env ∧
    (sampleShared id).imports.ConstructorsTruthful (sampleShared id).env ∧
    (sampleShared id).imports.Rearranged (sampleShared List.reverse).imports ∧ ∃ x y : Interface,
      ((sampleShared id).complete ∅ ∅ [⟨.null, .module ⟨"X"⟩⟩]).result = .ok x ∧
      ((sampleShared List.reverse).complete ∅ ∅ [⟨.null, .module ⟨"X"⟩⟩]).result = .ok y ∧
      x.constructors? "T" = some ["C"] ∧ y.constructors? "T" = some [] := by
  have hconstructors : (sampleShared id).imports.ConstructorsTruthful (sampleShared id).env := by
    have htype : ∀ e ∈ ((sampleShared id).imports.table .dataConstructor).toList, ∀ r ∈ e.2,
        (((sampleShared id).env.get? r.module).bind (·.get? .type "T")).any fun d =>
          r.name ∈ d.constructors ∧ d.origin.definedIn = r.home := by decide +kernel
    refine Imports.forall_get?_iff.2 fun e he r hr => ?_
    obtain ⟨d, hd, h⟩ := (Option.any_eq_true _ _).1 (htype e he r hr)
    obtain ⟨y, hy, hyd⟩ := Option.bind_eq_some_iff.1 hd
    exact ⟨y, "T", d, hy, hyd, of_decide_eq_true h⟩
  obtain ⟨x, hx⟩ : ∃ x, ((sampleShared id).complete ∅ ∅ [⟨.null, .module ⟨"X"⟩⟩]).result = .ok x ∧
      x.constructors? "T" = some ["C"] := except_map_eq_ok.1 (by cbv)
  obtain ⟨y, hy⟩ : ∃ y,
      ((sampleShared List.reverse).complete ∅ ∅ [⟨.null, .module ⟨"X"⟩⟩]).result = .ok y ∧
        y.constructors? "T" = some [] := except_map_eq_ok.1 (by cbv)
  exact ⟨by decide +kernel, by decide +kernel, hconstructors, rearranged_sampleShared, x, y, hx.1,
    hy.1, hx.2, hy.2⟩

end ModuleView

end ModuleExports
