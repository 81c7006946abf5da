import Mathlib
import ModuleExports.Interface.Candidate
import ModuleExports.Proofs.Reexport.Published

/-!
A ref to another module publishes what the names in scope stand for. Main statement: where imports
keep their names and tell the truth about homes, a name is published exactly when its use reaches a
record that the ref stands for, with the home that was settled on and the constructors that are in
scope in the same way.
-/
namespace ModuleExports
open Std

/-- Every record stands under the name that its module exports it by. -/
def Imports.KeepsNames (i : Imports) : Prop :=
  ∀ kind key records, i.get? kind key = some records → ∀ r ∈ records, r.name = key.name

/-- Every record that is not of `m` itself leads to an entry of `env` with the record's home. -/
def Imports.Truthful (i : Imports) (m : ModuleName) (env : Environment) : Prop :=
  ∀ (ns : Namespace) key records, i.get? ns key = some records → ∀ r ∈ records, r.module ≠ m →
    ∃ y e, env.get? r.module = some y ∧ y.get? ns r.name = some e ∧ e.origin.definedIn = r.home

namespace Imports
variable {i : Imports} {m : ModuleName} {env : Environment}

instance : Decidable i.KeepsNames := decidable_of_iff _ forall_kind_get?_iff.symm

theorem truthful_iff : i.Truthful m env ↔ ∀ ns ∈ Namespace.all, ∀ e ∈ (i.table ns).toList,
    ∀ r ∈ e.2, r.module ≠ m →
      ((env.get? r.module).bind (·.get? ns r.name)).map (·.origin.definedIn) = some r.home := by
  have hentry (ns : Namespace) (r : ImportRecord) :
      ((env.get? r.module).bind (·.get? ns r.name)).map (·.origin.definedIn) = some r.home ↔
        ∃ y e, env.get? r.module = some y ∧ y.get? ns r.name = some e ∧
          e.origin.definedIn = r.home := by
    simp only [Option.map_eq_some_iff, Option.bind_eq_some_iff]
    constructor
    · rintro ⟨e, ⟨y, hy, he⟩, hh⟩
      exact ⟨y, e, hy, he, hh⟩
    · rintro ⟨y, e, hy, he, hh⟩
      exact ⟨e, ⟨y, hy, he⟩, hh⟩
  simp only [hentry, Namespace.mem_all, forall_const, Truthful]
  exact forall_congr' fun ns => forall_get?_iff

instance : Decidable (i.Truthful m env) := decidable_of_iff _ truthful_iff.symm

end Imports

namespace ModuleView
variable {s : ModuleView} {x : ModuleName} {span : Span} {kind : NameKind} {n : String}

/-- A use of the visible name `key` settles on `c`, which is not a name of the module itself. -/
structure Settles (s : ModuleView) (span : Span) (kind : NameKind) (key : QualifiedName)
    (records : List ImportRecord) (c : ImportRecord) : Prop where
  found : s.imports.get? kind key = some records
  chosen : ((s.site span kind key.name).settle records).result = .ok c
  foreign : c.module ≠ s.module

/-- The unqualified name `n` stands for `c`, and was imported from `x` with the same home. -/
def InScopeFrom (s : ModuleView) (x : ModuleName) (span : Span) (kind : NameKind) (n : String)
    (c : ImportRecord) : Prop :=
  ∃ records, s.Settles span kind ⟨none, n⟩ records c ∧
    ∃ r ∈ records, r.module = x ∧ r.home = c.home

/-- The name `n` behind the qualifier `x` stands for `c`. -/
def InScopeBehind (s : ModuleView) (x : ModuleName) (span : Span) (kind : NameKind) (n : String)
    (c : ImportRecord) : Prop :=
  ∃ records, s.Settles span kind ⟨some x, n⟩ records c

/-- The entry `e` is that of `n` in the module `m`, taken over from there with the constructors that
are kept. -/
def TakenOver (s : ModuleView) (m home : ModuleName) (n : String) {ns : Namespace} (e : Entry ns)
    (Kept : String → Prop) : Prop :=
  e.origin = ⟨home, some m⟩ ∧ ∃ y f keep, s.env.get? m = some y ∧ y.get? ns n = some f ∧
    e.constructors = f.constructors.filter keep ∧ ∀ c, keep c = true ↔ Kept c

/-- The key under which a ref to `x` looks for a name. -/
def keyFor (s : ModuleView) (x : ModuleName) (n : String) : QualifiedName :=
  ⟨if s.imports.isQualifier x then some x else none, n⟩

theorem Publishes.key_eq {key : QualifiedName} {r : ImportRecord}
    (h : s.Publishes x span kind key r) : key = s.keyFor x key.name := by
  obtain ⟨records, -, -, hb, -⟩ := h
  obtain ⟨q, n⟩ := key
  unfold belongs at hb
  unfold keyFor
  split at hb
  · simp_all [QualifiedName.hasQualifier]
  · simp_all [QualifiedName.isBare]

theorem Publishes.unique {key : QualifiedName} {r t : ImportRecord}
    (hr : s.Publishes x span kind key r) (ht : s.Publishes x span kind key t) : r = t := by
  obtain ⟨records, c, hk, -, hc, hp⟩ := hr
  obtain ⟨records', c', hk', -, hc', hp'⟩ := ht
  obtain rfl := Option.some.inj (hk.symm.trans hk')
  obtain rfl := Except.ok.inj (hc.symm.trans hc')
  exact Option.some.inj (hp.symm.trans hp')

theorem Publishes.name_eq (hn : s.imports.KeepsNames) (hx : x ≠ s.module) {key : QualifiedName}
    {r : ImportRecord} (h : s.Publishes x span kind key r) : r.name = key.name := by
  obtain ⟨records, hk, hr, -⟩ := h.exists_mem hx
  exact hn kind key records hk r hr

/-- Where imports keep their names, a record is published by its own. -/
theorem publishes_keyFor_iff (hn : s.imports.KeepsNames) (hx : x ≠ s.module) {r : ImportRecord} :
    s.Publishes x span kind (s.keyFor x n) r ↔
      (∃ key, s.Publishes x span kind key r) ∧ r.name = n := by
  constructor
  · intro h
    exact ⟨⟨_, h⟩, h.name_eq hn hx⟩
  · rintro ⟨⟨key, h⟩, rfl⟩
    rwa [h.name_eq hn hx, ← h.key_eq]

theorem publishes_behind (hq : s.imports.isQualifier x) {r : ImportRecord} :
    s.Publishes x span kind (s.keyFor x n) r ↔ s.InScopeBehind x span kind n r := by
  have hk : s.keyFor x n = ⟨some x, n⟩ := by simp [keyFor, hq]
  rw [hk]
  constructor
  · rintro ⟨records, c, hf, -, hc, hp⟩
    have hm := (published?_eq_some hp).1
    simp only [published?, hm, ↓reduceIte, hq, Bool.true_or, Option.some.injEq] at hp
    exact ⟨records, hf, hp ▸ hc, hp ▸ hm⟩
  · rintro ⟨records, hf, hc, hm⟩
    exact ⟨records, r, hf, by simp [belongs, hq, QualifiedName.hasQualifier], hc,
      by simp [published?, hm, hq]⟩

theorem Publishes.inScopeFrom (hq : ¬ s.imports.isQualifier x) {r : ImportRecord}
    (h : s.Publishes x span kind (s.keyFor x n) r) :
    r.module = x ∧ ∃ c, s.InScopeFrom x span kind n c ∧ c.home = r.home := by
  have hk : s.keyFor x n = ⟨none, n⟩ := by simp [keyFor, hq]
  obtain ⟨records, c, hf, -, hc, hp⟩ := hk ▸ h
  have hm := (published?_eq_some hp).1
  have hr : r ∈ records ∧ r.module = x ∧ r.home = c.home := by
    simp only [published?, hm, ↓reduceIte, hq, Bool.false_or, beq_iff_eq] at hp
    split at hp
    next hx =>
      obtain rfl := Option.some.inj hp
      exact ⟨UseSite.mem_of_settle hc, hx, rfl⟩
    next =>
      have hh := List.find?_some hp
      simp only [Bool.and_eq_true, beq_iff_eq] at hh
      exact ⟨List.mem_of_find?_eq_some hp, hh⟩
  exact ⟨hr.2.1, c, ⟨records, ⟨hf, hc, hm⟩, r, hr⟩, hr.2.2.symm⟩

theorem InScopeFrom.exists_publishes (hq : ¬ s.imports.isQualifier x) {c : ImportRecord}
    (h : s.InScopeFrom x span kind n c) :
    ∃ r, s.Publishes x span kind (s.keyFor x n) r ∧ r.module = x ∧ r.home = c.home := by
  have hk : s.keyFor x n = ⟨none, n⟩ := by simp [keyFor, hq]
  obtain ⟨records, ⟨hf, hc, hm⟩, r, hr, hx, hh⟩ := h
  have hb : s.belongs x ⟨none, n⟩ records := by
    simp only [belongs, hq, QualifiedName.isBare, Option.isNone_none, Bool.true_and,
      Bool.false_eq_true, ↓reduceIte, List.any_eq_true, beq_iff_eq]
    exact ⟨r, hr, hx⟩
  rw [hk]
  by_cases hcm : c.module = x
  · have hp : s.published? x c records = some c := by simp [published?, hm, beq_iff_eq.2 hcm]
    exact ⟨c, ⟨records, c, hf, hb, hc, hp⟩, hcm, rfl⟩
  · have hs : (records.find? fun r => r.module == x && r.home == c.home).isSome := by
      simp only [List.find?_isSome, Bool.and_eq_true, beq_iff_eq]
      exact ⟨r, hr, hx, hh⟩
    obtain ⟨t, ht⟩ := Option.isSome_iff_exists.1 hs
    have hth := List.find?_some ht
    simp only [Bool.and_eq_true, beq_iff_eq] at hth
    exact ⟨t, ⟨records, c, hf, hb, hc, by simp [published?, hm, hq, hcm, ht]⟩, hth⟩

section Faithful
variable (hn : s.imports.KeepsNames) (hx : x ≠ s.module)
include hn hx

/-- Where imports keep their names, a ref makes the table of the records that it publishes. -/
theorem get?_moduleTable_of_keepsNames {ns : Namespace} {t : Table ns}
    (h : (s.moduleTable x span ns).result = .ok t) :
    ∃ constructors, (s.visibleConstructors x span ns).result = .ok constructors ∧
      ∀ n e, t[n]? = some e ↔ ∃ r, s.Publishes x span ns (s.keyFor x n) r ∧
        s.reexport constructors r ns = .ok e := by
  obtain ⟨records, constructors, hr, hc, ht⟩ := get?_moduleTable h
  refine ⟨constructors, hc, fun n e => ?_⟩
  have hmem (r : ImportRecord) :
      r ∈ records.filter (·.name == n) ↔ s.Publishes x span ns (s.keyFor x n) r := by
    rw [List.mem_filter, mem_visible hr, beq_iff_eq, publishes_keyFor_iff hn hx]
  rw [ht]
  constructor
  · rintro ⟨r, hl, he⟩
    exact ⟨r, (hmem r).1 (List.mem_of_getLast? hl), he⟩
  · rintro ⟨r, hp, he⟩
    have hl := List.getLast?_eq_some_getLast (List.ne_nil_of_mem ((hmem r).2 hp))
    have hu := ((hmem _).1 (List.mem_of_getLast? hl)).unique hp
    exact ⟨r, hu ▸ hl, he⟩

/-- A constructor goes with the types of `m` when one of its name is published from `m`. -/
theorem any_constructor_iff {constructors : List ImportRecord}
    (hc : (s.visibleConstructors x span .type).result = .ok constructors) (m : ModuleName)
    (c : String) :
    (constructors.any fun k => k.module == m && k.name == c) = true ↔
      ∃ d, s.Publishes x span .dataConstructor (s.keyFor x c) d ∧ d.module = m := by
  simp only [List.any_eq_true, Bool.and_eq_true, beq_iff_eq, mem_visible hc,
    publishes_keyFor_iff hn hx, and_assoc]
  exact exists_congr fun d => and_congr_right fun _ => and_comm

theorem constructors_of_visible {ns : Namespace} {constructors : List ImportRecord}
    (hc : (s.visibleConstructors x span ns).result = .ok constructors) (f : Entry ns)
    {m : ModuleName} {keep : String → Bool} (hk : ∀ c, keep c = true ↔
      ∃ d, s.Publishes x span .dataConstructor (s.keyFor x c) d ∧ d.module = m) :
    (f.reexported m fun c => constructors.any fun k => k.module == m && k.name == c).constructors =
      f.constructors.filter keep := by
  rw [Entry.constructors_reexported]
  cases ns with
  | type =>
    refine List.filter_congr fun c _ => ?_
    rw [Bool.eq_iff_iff, any_constructor_iff hn hx hc, hk]
  | _ => rfl

/-- A published record tells where to find the entry that it stands for. -/
theorem exists_entry_of_publishes (ht : s.imports.Truthful s.module s.env) {ns : Namespace}
    {r : ImportRecord} (h : s.Publishes x span ns (s.keyFor x n) r) :
    ∃ y f, s.env.get? r.module = some y ∧ y.get? ns r.name = some f ∧ r.name = n ∧
      f.origin.definedIn = r.home := by
  obtain ⟨records, hk, hr, hm⟩ := h.exists_mem hx
  obtain ⟨y, f, hy, hf, hh⟩ := ht ns _ records hk r hr hm
  exact ⟨y, f, hy, hf, h.name_eq hn hx, hh⟩

/-- The entries of a table that a ref makes, in terms of the records that it publishes. -/
theorem get?_moduleTable_iff (ht : s.imports.Truthful s.module s.env) {ns : Namespace}
    {t : Table ns} (h : (s.moduleTable x span ns).result = .ok t) {e : Entry ns} :
    t[n]? = some e ↔ ∃ r, s.Publishes x span ns (s.keyFor x n) r ∧
      s.TakenOver r.module r.home n e fun c =>
        ∃ d, s.Publishes x span .dataConstructor (s.keyFor x c) d ∧ d.module = r.module := by
  classical
  obtain ⟨constructors, hc, ht'⟩ := get?_moduleTable_of_keepsNames hn hx h
  rw [ht']
  refine exists_congr fun r => and_congr_right fun hp => ?_
  obtain ⟨y, f, hy, hf, rfl, hh⟩ := exists_entry_of_publishes hn hx ht hp
  rw [reexport_eq_ok]
  constructor
  · rintro ⟨y', f', hy', hf', rfl⟩
    obtain rfl := Option.some.inj (hy.symm.trans hy')
    obtain rfl := Option.some.inj (hf.symm.trans hf')
    exact ⟨congrArg (Origin.mk · _) hh, y, f, _, hy, hf,
      constructors_of_visible hn hx hc f fun c => decide_eq_true_iff, fun c => decide_eq_true_iff⟩
  · rintro ⟨ho, y', f', keep, hy', hf', hk, hkeep⟩
    obtain rfl := Option.some.inj (hy.symm.trans hy')
    obtain rfl := Option.some.inj (hf.symm.trans hf')
    refine ⟨y, f, hy, hf, Entry.ext_constructors ?_ ?_⟩
    · exact ho.trans (congrArg (Origin.mk · _) hh.symm)
    · rw [hk, constructors_of_visible hn hx hc f hkeep]

/-- A ref publishes a name whenever it publishes a record for it. -/
theorem contains_moduleTable_iff {ns : Namespace} {t : Table ns}
    (h : (s.moduleTable x span ns).result = .ok t) :
    t[n]?.isSome ↔ ∃ r, s.Publishes x span ns (s.keyFor x n) r := by
  simp only [contains_moduleTable h, publishes_keyFor_iff hn hx]
  constructor
  · rintro ⟨key, r, hr, hrn⟩
    exact ⟨r, ⟨key, hr⟩, hrn⟩
  · rintro ⟨r, ⟨key, hr⟩, hrn⟩
    exact ⟨key, r, hr, hrn⟩

end Faithful

theorem complete_module {candidate res : Interface} (hx : x ≠ s.module)
    (h : (s.complete candidate ∅ [⟨span, .module x⟩]).result = .ok res) :
    (s.moduleInterface x span).result = .ok res := by
  have h : (s.addRef candidate ∅ ⟨span, .module x⟩).result = .ok res := by
    simpa [complete] using h
  simp only [addRef, ExportItem.module?, hx, ↓reduceIte] at h
  obtain ⟨y, hy, h⟩ := Logged.result_bind_eq_ok.1 h
  obtain rfl := except_pure_eq_ok.1 h
  rw [hy]
  exact congrArg Except.ok (Interface.ext_get? fun ns n => by simp)

/-- What a ref to another module publishes on its own. An opened module stands for the unqualified
names that were imported from it, where no other import hides them; a qualifier stands for the names
behind it. A type keeps the constructors that are in scope in the same way. -/
theorem get?_complete_module {candidate res : Interface} (hx : x ≠ s.module)
    (hn : s.imports.KeepsNames) (ht : s.imports.Truthful s.module s.env)
    (h : (s.complete candidate ∅ [⟨span, .module x⟩]).result = .ok res) :
    (s.imports.isOpened x → ¬ s.imports.isQualifier x → ∀ ns n,
      (res.contains ns n ↔ ∃ c, s.InScopeFrom x span ns n c) ∧
      ∀ e, res.get? ns n = some e → ∃ c, s.InScopeFrom x span ns n c ∧
        s.TakenOver x c.home n e fun k => ∃ d, s.InScopeFrom x span .dataConstructor k d) ∧
    (s.imports.isQualifier x → ∀ ns n,
      (res.contains ns n ↔ ∃ c, s.InScopeBehind x span ns n c) ∧
      ∀ e, res.get? ns n = some e → ∃ c, s.InScopeBehind x span ns n c ∧
        s.TakenOver c.module c.home n e fun k =>
          ∃ d, s.InScopeBehind x span .dataConstructor k d ∧ d.module = c.module) := by
  have htable := moduleTable_of_moduleInterface (complete_module hx h)
  constructor
  · intro _ hq ns n
    constructor
    · rw [Interface.contains, Interface.get?, contains_moduleTable_iff hn hx (htable ns)]
      constructor
      · rintro ⟨r, hp⟩
        obtain ⟨-, c, hc, -⟩ := hp.inScopeFrom hq
        exact ⟨c, hc⟩
      · rintro ⟨c, hc⟩
        obtain ⟨r, hp, -⟩ := hc.exists_publishes hq
        exact ⟨r, hp⟩
    · intro e he
      obtain ⟨r, hp, ho, y, f, keep, hy, hf, hk, hkeep⟩ :=
        (get?_moduleTable_iff hn hx ht (htable ns)).1 he
      obtain ⟨rfl, c, hc, hh⟩ := hp.inScopeFrom hq
      refine ⟨c, hc, hh ▸ ho, y, f, keep, hy, hf, hk, fun k => (hkeep k).trans ?_⟩
      constructor
      · rintro ⟨d, hd, -⟩
        obtain ⟨-, d, hd, -⟩ := hd.inScopeFrom hq
        exact ⟨d, hd⟩
      · rintro ⟨d, hd⟩
        obtain ⟨d, hd, hm, -⟩ := hd.exists_publishes hq
        exact ⟨d, hd, hm⟩
  · intro hq ns n
    constructor
    · rw [Interface.contains, Interface.get?, contains_moduleTable_iff hn hx (htable ns)]
      exact exists_congr fun r => publishes_behind hq
    · intro e he
      obtain ⟨r, hp, h⟩ := (get?_moduleTable_iff hn hx ht (htable ns)).1 he
      simp only [publishes_behind hq] at h
      exact ⟨r, (publishes_behind hq).1 hp, h⟩

/-- The module `M` opens `A`, names `g` of `B` in an import list, and sees `h` of `B` behind `Q`. -/
def sampleView : ModuleView where
  env := ⟨(({} : ModuleMap Interface).insert ⟨"A"⟩ (.candidate ⟨"A"⟩
    [.value "f", .value "g", .data "T" ["X", "Y"]])).insert ⟨"B"⟩ (.candidate ⟨"B"⟩
      [.value "g", .value "h"])⟩
  module := ⟨"M"⟩
  imports :=
    let opened (m name : String) : ImportRecord := ⟨⟨m⟩, name, ⟨m⟩, .null, .implicit⟩
    let listed (m name : String) : ImportRecord := ⟨⟨m⟩, name, ⟨m⟩, .null, .explicit⟩
    (({} : Imports).openModule ⟨"A"⟩).append (.inNamespace .value) ⟨none, "f"⟩ [opened "A" "f"]
      |>.append (.inNamespace .value) ⟨none, "g"⟩ [opened "A" "g", listed "B" "g"]
      |>.append (.inNamespace .type) ⟨none, "T"⟩ [opened "A" "T"]
      |>.append .dataConstructor ⟨none, "X"⟩ [opened "A" "X"]
      |>.append (.inNamespace .value) ⟨some ⟨"Q"⟩, "h"⟩ [opened "B" "h"]
  settings := {}

theorem get?_complete_module_sampleView : ∃ a q : Interface,
    (sampleView.complete ∅ ∅ [⟨.null, .module ⟨"A"⟩⟩]).result = .ok a ∧
    (a.names .value, a.constructors? "T") = (["f"], some ["X"]) ∧
    (sampleView.complete ∅ ∅ [⟨.null, .module ⟨"Q"⟩⟩]).result = .ok q ∧
    (q.names .value, q.constructors? "T") = (["h"], none) ∧
    (∀ n, a.contains .value n ↔ ∃ c, sampleView.InScopeFrom ⟨"A"⟩ .null (.inNamespace .value) n c) ∧
    ∀ n, q.contains .value n ↔
      ∃ c, sampleView.InScopeBehind ⟨"Q"⟩ .null (.inNamespace .value) n c := by
  obtain ⟨a, ha, hpa⟩ : ∃ a, (sampleView.complete ∅ ∅ [⟨.null, .module ⟨"A"⟩⟩]).result = .ok a ∧
      (a.names .value, a.constructors? "T") = (["f"], some ["X"]) := except_map_eq_ok.1 (by cbv)
  obtain ⟨q, hq, hpq⟩ : ∃ q, (sampleView.complete ∅ ∅ [⟨.null, .module ⟨"Q"⟩⟩]).result = .ok q ∧
      (q.names .value, q.constructors? "T") = (["h"], none) := except_map_eq_ok.1 (by cbv)
  have hn : sampleView.imports.KeepsNames := by decide +kernel
  have ht : sampleView.imports.Truthful sampleView.module sampleView.env := by decide +kernel
  have hopened := (get?_complete_module (by decide) hn ht ha).1 (by decide +kernel)
    (by decide +kernel)
  have hbehind := (get?_complete_module (by decide) hn ht hq).2 (by decide +kernel)
  exact ⟨a, q, ha, hpa, hq, hpq, fun n => (hopened .value n).1, fun n => (hbehind .value n).1⟩

end ModuleView

end ModuleExports
