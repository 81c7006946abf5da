import Mathlib
import ModuleExports.Proofs.ExportList.Duplicates
import ModuleExports.Proofs.Reexport.Precedence
import ModuleExports.Proofs.Reexport.Success

/-!
Modules that hand on all that another module publishes. Main statement: along a chain of such
modules, however long it is and in whichever way each of them imports the one before, every name
arrives with its constructors and its home, and notes only the last module that it came through.
-/
namespace ModuleExports
open Std

/-- The entry as re-exported through `m`, with all its constructors. -/
def Entry.via {ns : Namespace} (e : Entry ns) (m : ModuleName) : Entry ns :=
  ⟨e.payload, e.origin.via m⟩

theorem Entry.reexported_eq_via {ns : Namespace} (e : Entry ns) (m : ModuleName)
    {keep : String → Bool} (h : ∀ c ∈ e.constructors, keep c) : e.reexported m keep = e.via m := by
  refine Entry.ext_constructors rfl ?_
  rw [constructors_reexported]
  exact List.filter_eq_self.2 h

namespace Interface
variable {x : Interface} {ns : Namespace} {n c : String}

/-- Every entry as re-exported through `m`. -/
def via (x : Interface) (m : ModuleName) : Interface :=
  ofTables fun ns => (x.table ns).map fun _ e => e.via m

@[simp] theorem get?_via (x : Interface) (m : ModuleName) (ns : Namespace) (n : String) :
    (x.via m).get? ns n = (x.get? ns n).map (·.via m) := by
  simp [get?, via, ExtTreeMap.getElem?_map]

@[simp] theorem contains_via (x : Interface) (m : ModuleName) (ns : Namespace) (n : String) :
    (x.via m).contains ns n = x.contains ns n := by
  simp [contains]

/-- Only the last module that the entries came through is noted. -/
@[simp] theorem via_via (x : Interface) (m k : ModuleName) : (x.via m).via k = x.via k := by
  refine ext_get? fun ns n => ?_
  simp only [get?_via, Option.map_map]
  rfl

/-- What the table has to offer for an import, by kind: names, and the constructors of types. -/
def offered (x : Interface) : NameKind → List String
  | .inNamespace ns => x.names ns
  | .dataConstructor => x.types.toList.flatMap (·.2.constructors)
  | .module => []

theorem mem_offered : n ∈ x.offered ns ↔ ∃ e, x.get? ns n = some e := by
  rw [offered, names, ExtTreeMap.mem_keys, ExtTreeMap.mem_iff_isSome_getElem?,
    Option.isSome_iff_exists]
  rfl

theorem mem_offered_constructor :
    c ∈ x.offered .dataConstructor ↔ ∃ n e, x.get? .type n = some e ∧ c ∈ e.constructors := by
  simp only [offered, List.mem_flatMap, Prod.exists, ExtTreeMap.mem_toList_iff_getElem?_eq_some]
  rfl

end Interface

/-- The imports bring in all that `x` offers and nothing else. Each name is seen behind `q`, and is
the one of that name in `m`. -/
structure Imports.BringsAll (i : Imports) (m : ModuleName) (x : Interface) (q : Option ModuleName) :
    Prop where
  only : ∀ kind key records, i.get? kind key = some records → key.module = q ∧
    key.name ∈ x.offered kind ∧ records.map ImportRecord.exportedName = [⟨some m, key.name⟩]
  all : ∀ kind, ∀ n ∈ x.offered kind, ∃ records, i.get? kind ⟨q, n⟩ = some records

namespace Imports
variable {i : Imports} {m : ModuleName} {x : Interface} {q : Option ModuleName}

theorem bringsAll_iff : i.BringsAll m x q ↔
    (∀ kind ∈ NameKind.all, ∀ e ∈ (i.table kind).toList, e.1.module = q ∧
      e.1.name ∈ x.offered kind ∧ e.2.map ImportRecord.exportedName = [⟨some m, e.1.name⟩]) ∧
    ∀ kind ∈ NameKind.all, ∀ n ∈ x.offered kind, (i.get? kind ⟨q, n⟩).isSome := by
  have honly := @forall_kind_get?_iff i fun kind key records =>
    key.module = q ∧ key.name ∈ x.offered kind ∧
      records.map ImportRecord.exportedName = [⟨some m, key.name⟩]
  rw [← honly]
  simp only [NameKind.mem_all, forall_const, Option.isSome_iff_exists]
  exact ⟨fun h => ⟨h.only, h.all⟩, fun h => ⟨h.1, h.2⟩⟩

instance : Decidable (i.BringsAll m x q) := decidable_of_iff _ bringsAll_iff.symm

theorem BringsAll.single (h : i.BringsAll m x q) {kind : NameKind} {key : QualifiedName}
    {records : List ImportRecord} (hk : i.get? kind key = some records) :
    ∃ r, records = [r] ∧ r.module = m ∧ r.name = key.name := by
  obtain ⟨r, rfl, hr⟩ := List.map_eq_singleton_iff.1 (h.only kind key records hk).2.2
  simp only [ImportRecord.exportedName, QualifiedName.mk.injEq, Option.some.injEq] at hr
  exact ⟨r, rfl, hr⟩

end Imports

/-- The module exports just what it gets from `m`, which publishes `x`: it opens `m`, or sees all of
it behind a qualifier, and imports nothing else. -/
inductive ModuleSource.HandsOn (u : ModuleSource) (m : ModuleName) (x : Interface) : Prop where
  | opened (span : Span) : u.exportList = some [⟨span, .module m⟩] → u.imports.isOpened m →
      u.imports.BringsAll m x none → HandsOn u m x
  | behind (span : Span) (a : ModuleName) : u.exportList = some [⟨span, .module a⟩] → a ≠ u.name →
      ¬ u.imports.isOpened a → u.imports.BringsAll m x (some a) → HandsOn u m x

namespace ModuleView
variable {s : ModuleView} {a m : ModuleName} {x : Interface} {span : Span}

/-- A ref to `a` stands for everything in scope, which is all of `m`. -/
structure HandsOn (s : ModuleView) (a m : ModuleName) (x : Interface) : Prop where
  found : s.env.get? m = some x
  other : m ≠ s.module
  foreign : a ≠ s.module
  known : s.imports.isQualifier a ∨ s.imports.isOpened a
  same : ¬ s.imports.isQualifier a → a = m
  brings : s.imports.BringsAll m x (if s.imports.isQualifier a then some a else none)

namespace HandsOn
variable (h : s.HandsOn a m x)
include h

theorem keepsNames : s.imports.KeepsNames := by
  intro kind key records hk r hr
  obtain ⟨t, rfl, -, hn⟩ := h.brings.single hk
  obtain rfl := List.mem_singleton.1 hr
  exact hn

theorem validated : s.imports.Validated s.module s.env := by
  intro ns key records hk r hr _
  obtain ⟨t, rfl, hm, hn⟩ := h.brings.single hk
  obtain rfl := List.mem_singleton.1 hr
  obtain ⟨e, he⟩ := Interface.mem_offered.1 (h.brings.only ns key _ hk).2.1
  exact ⟨x, hm ▸ h.found, by simp [Interface.contains, hn, he]⟩

/-- A ref publishes all that is in scope, as it was imported. -/
theorem publishes_iff {kind : NameKind} {n : String} {r : ImportRecord} :
    s.Publishes a span kind (s.keyFor a n) r ↔ s.imports.get? kind (s.keyFor a n) = some [r] := by
  constructor
  · rintro ⟨records, c, hk, -, hc, hp⟩
    obtain ⟨t, rfl, -⟩ := h.brings.single hk
    obtain rfl : t = c := by simpa using hc
    obtain ⟨-, rfl | ⟨hr, -⟩⟩ := published?_eq_some hp
    · exact hk
    · exact List.mem_singleton.1 hr ▸ hk
  · intro hk
    obtain ⟨t, ht, hm, -⟩ := h.brings.single hk
    obtain rfl := (List.cons.inj ht).1
    refine ⟨[r], r, hk, ?_, by simp, ?_⟩
    · by_cases hq : s.imports.isQualifier a
      · simp [belongs, keyFor, hq, QualifiedName.hasQualifier]
      · simp [belongs, keyFor, hq, QualifiedName.isBare, hm.trans (h.same hq).symm]
    · by_cases hq : s.imports.isQualifier a
      · simp [published?, hm, h.other, hq]
      · simp [published?, hm, h.other, h.same hq]

theorem exists_publishes (span : Span) {kind : NameKind} {n : String} (hn : n ∈ x.offered kind) :
    ∃ r, s.Publishes a span kind (s.keyFor a n) r ∧ r.module = m ∧ r.name = n := by
  obtain ⟨records, hk⟩ := h.brings.all kind n hn
  obtain ⟨r, rfl, hr⟩ := h.brings.single hk
  exact ⟨r, h.publishes_iff.2 hk, hr⟩

theorem get?_moduleTable {ns : Namespace} {t : Table ns}
    (ht : (s.moduleTable a span ns).result = .ok t) (n : String) :
    t[n]? = (x.get? ns n).map (·.via m) := by
  obtain ⟨constructors, hc, ht⟩ := get?_moduleTable_of_keepsNames h.keepsNames h.foreign ht
  refine Option.ext fun e => ?_
  rw [ht, Option.map_eq_some_iff]
  have hvia (f : Entry ns) (hf : x.get? ns n = some f) :
      (f.reexported m fun c => constructors.any fun k => k.module == m && k.name == c) =
        f.via m := by
    refine f.reexported_eq_via m fun c hcf => ?_
    cases ns with
    | type =>
      obtain ⟨d, hd, hm, -⟩ :=
        h.exists_publishes span (Interface.mem_offered_constructor.2 ⟨n, f, hf, hcf⟩)
      exact (any_constructor_iff h.keepsNames h.foreign hc m c).2 ⟨d, hd, hm⟩
    | _ => cases hcf
  constructor
  · rintro ⟨r, hp, he⟩
    obtain ⟨t, hr, rfl, hn⟩ := h.brings.single (h.publishes_iff.1 hp)
    obtain rfl := (List.cons.inj hr).1
    obtain ⟨y, f, hy, hf, rfl⟩ := reexport_eq_ok.1 he
    obtain rfl := Option.some.inj (hy.symm.trans h.found)
    have hf : y.get? ns n = some f := (congrArg (y.get? ns) hn).symm.trans hf
    exact ⟨f, hf, (hvia f hf).symm⟩
  · rintro ⟨f, hf, rfl⟩
    obtain ⟨r, hp, rfl, rfl⟩ := h.exists_publishes span (Interface.mem_offered.2 ⟨f, hf⟩)
    exact ⟨r, hp, reexport_eq_ok.2 ⟨x, f, h.found, hf, (hvia f hf).symm⟩⟩

/-- Nothing is lost, added or warned of. -/
theorem moduleInterface_eq : s.moduleInterface a span = pure (x.via m) := by
  have hsettle : ∀ kind key records, s.imports.get? kind key = some records → ∃ r,
      (s.site span kind key.name).settle records = pure r := by
    intro kind key records hk
    obtain ⟨r, rfl, -⟩ := h.brings.single hk
    exact ⟨r, UseSite.settle_singleton _ r⟩
  have hall (kind : NameKind) : s.SettlesAll a span kind := by
    intro key records hk _
    obtain ⟨r, hr⟩ := hsettle kind key records hk
    exact ⟨r, by rw [hr]; rfl⟩
  obtain ⟨y, hy⟩ := (exists_moduleInterface_iff h.validated h.foreign).2
    ⟨h.known, fun ns => hall ns, hall _⟩
  have hlog : (s.moduleInterface a span).LogsOnly fun _ => False := by
    refine logsOnly_moduleInterface fun kind key records hk _ => ?_
    obtain ⟨r, hr⟩ := hsettle kind key records hk
    rw [hr]
    exact .ofExcept _
  rw [Logged.eq_pure_of_logsOnly hy hlog]
  refine congrArg _ (Interface.ext_get? fun ns n => ?_)
  rw [Interface.get?_via]
  exact h.get?_moduleTable (moduleTable_of_moduleInterface hy ns) n

end HandsOn

end ModuleView

namespace ModuleSource
variable {u : ModuleSource} {us : List ModuleSource} {env : Environment} {settings : Settings}
  {m : ModuleName} {x : Interface}

theorem HandsOn.exists_ref (settings : Settings) (h : u.HandsOn m x) (hm : env.get? m = some x)
    (hx : ∃ ns n, x.contains ns n) (hne : m ≠ u.name) :
    ∃ span a, u.exportList = some [⟨span, .module a⟩] ∧ (u.scope env settings).HandsOn a m x := by
  cases h with
  | opened span he ho hb =>
    -- With no name behind a qualifier there is no qualifier.
    have hq : ¬ u.imports.isQualifier m := by
      rw [Imports.isQualifier_iff]
      rintro ⟨kind, key, records, hk, hq⟩
      simp [(hb.only kind key records hk).1] at hq
    exact ⟨span, m, he, hm, hne, hne, .inr ho, fun _ => rfl, by simpa [scope, hq] using hb⟩
  | behind span a he ha ho hb =>
    have hq : u.imports.isQualifier a := by
      obtain ⟨ns, n, hn⟩ := hx
      obtain ⟨records, hk⟩ :=
        hb.all ns n (Interface.mem_offered.2 (Option.isSome_iff_exists.1 hn))
      exact Imports.isQualifier_iff.2 ⟨ns, _, records, hk, rfl⟩
    exact ⟨span, a, he, hm, hne, ha, .inl hq, fun hq' => absurd hq hq',
      by simpa [scope, hq] using hb⟩

/-- What a module hands on is all that the other one publishes. -/
theorem resolve_of_handsOn (h : u.HandsOn m x) (hm : env.get? m = some x)
    (hx : ∃ ns n, x.contains ns n) (hne : m ≠ u.name) :
    u.resolve env settings = pure (x.via m) := by
  obtain ⟨span, a, he, hs⟩ := h.exists_ref settings hm hx hne
  have hnarrow : u.candidate.narrow u.name [⟨span, .module a⟩] = .ok ∅ := rfl
  have hcomplete : (u.scope env settings).complete u.candidate ∅ [⟨span, .module a⟩] =
      pure (x.via m) := by
    rw [ModuleView.complete_cons_foreign rfl hs.foreign, ModuleView.alone_of_foreign rfl hs.foreign,
      hs.moduleInterface_eq]
    simp [ModuleView.complete]
  have hok : (.ofExcept (.ok ∅) : Outcome Interface) = pure ∅ := rfl
  have hquiet : (.emitAll [] : Outcome Unit) = pure () := rfl
  simp only [resolve, he, hnarrow, hok, pure_bind, hcomplete, ExportRef.duplicates_module, hquiet]
  split <;> rfl

/-- Resolves a module and commits what it publishes. -/
def publish (settings : Settings) (env : Environment) (u : ModuleSource) : Outcome Environment := do
  let x ← u.resolve env settings
  .ofExcept (env.commit u.name x)

/-- Resolves modules in turn, each in the environment that the ones before it have led to. -/
def publishAll (settings : Settings) (env : Environment) (us : List ModuleSource) :
    Outcome Environment :=
  us.foldlM (publish settings) env

/-- Each module of the list hands on what the one before it has published by then, and the first
what `m` has. -/
inductive Relay (settings : Settings) : Environment → ModuleName → List ModuleSource → Prop where
  | nil {env : Environment} {m : ModuleName} : Relay settings env m []
  | cons {env : Environment} {m : ModuleName} {x : Interface} {u : ModuleSource}
      {us : List ModuleSource} : env.get? m = some x → u.HandsOn m x →
      (∀ env', (publish settings env u).result = .ok env' → Relay settings env' u.name us) →
      Relay settings env m (u :: us)

theorem publish_of_handsOn (settings : Settings) (h : u.HandsOn m x) (hm : env.get? m = some x)
    (hx : ∃ ns n, x.contains ns n) (hnew : env.get? u.name = none) : ∃ env',
    publish settings env u = pure env' ∧ env.commit u.name (x.via m) = .ok env' := by
  have hne : m ≠ u.name := by
    rintro rfl
    simp [hm] at hnew
  have hc : env.contains u.name = false := by simp [Environment.contains_eq_isSome, hnew]
  have hcommit : env.commit u.name (x.via m) = .ok ⟨env.modules.insert u.name (x.via m)⟩ := by
    simp [Environment.commit, hc]
  refine ⟨_, ?_, hcommit⟩
  rw [publish, resolve_of_handsOn h hm hx hne, pure_bind, hcommit]
  rfl

/-- Everything arrives at the end of a chain of modules that hand it on, with its constructors and
its home, and with the last module on the way for the one that it was imported from. -/
theorem publishAll_relay (hm : env.get? m = some x) (hx : ∃ ns n, x.contains ns n)
    (hnew : ∀ u ∈ us, env.get? u.name = none) (hdistinct : (us.map name).Nodup)
    (h : Relay settings env m us) : ∃ env', publishAll settings env us = pure env' ∧
      ∀ before u, us = before ++ [u] →
        env'.get? u.name = some (x.via ((before.map name).getLastD m)) := by
  induction us generalizing env m x with
  | nil => exact ⟨env, rfl, fun before u hu => by simp at hu⟩
  | cons v us ih =>
    cases h with
    | cons hm' hv hrest =>
    obtain rfl := Option.some.inj (hm.symm.trans hm')
    obtain ⟨env₁, hpublish, hcommit⟩ :=
      publish_of_handsOn settings hv hm hx (hnew v List.mem_cons_self)
    obtain ⟨hv', hdistinct⟩ := List.nodup_cons.1 hdistinct
    have hget := Environment.get?_commit hcommit
    have hnew₁ : ∀ u ∈ us, env₁.get? u.name = none := by
      intro u hu
      have hne : v.name ≠ u.name := fun he => hv' (he ▸ List.mem_map_of_mem hu)
      rw [hget, if_neg hne]
      exact hnew u (List.mem_cons_of_mem v hu)
    obtain ⟨env', hall, hlast⟩ := ih (x := x.via m) (by rw [hget, if_pos rfl]) (by simpa using hx)
      hnew₁ hdistinct (hrest env₁ (by rw [hpublish]; rfl))
    refine ⟨env', ?_, fun before u hu => ?_⟩
    · rw [publishAll, List.foldlM_cons, hpublish, pure_bind]
      exact hall
    · cases before with
      | nil =>
        obtain ⟨rfl, rfl⟩ := List.cons.inj hu
        obtain rfl : env₁ = env' := Except.ok.inj (congrArg Logged.result hall)
        rw [hget, if_pos rfl]
        rfl
      | cons w before =>
        obtain ⟨rfl, hus⟩ := List.cons.inj hu
        rw [hlast before u hus, Interface.via_via, List.map_cons, List.getLastD_cons]

def sampleTable : Interface :=
  .candidate ⟨"A"⟩ [.data "T" ["X", "Y"], .value "f", .valueFixity "+"]

def sampleEnvironment : Environment := ⟨({} : ModuleMap Interface).insert ⟨"A"⟩ sampleTable⟩

/-- Everything that `x` offers, listed in an import of `m` and seen behind `q`. -/
def sampleImports (m : ModuleName) (x : Interface) (q : Option ModuleName) (opened : ModuleSet) :
    Imports :=
  .ofRecords opened <| NameKind.all.flatMap fun kind =>
    (x.offered kind).map fun n => (kind, ⟨q, n⟩, ⟨m, n, ⟨"A"⟩, .null, .explicit⟩)

/-- The module `B` opens `A` and hands it on. -/
def sampleOpener : ModuleSource where
  name := ⟨"B"⟩
  imports := sampleImports ⟨"A"⟩ sampleTable none ((∅ : ModuleSet).insert ⟨"A"⟩)
  exportList := some [⟨.null, .module ⟨"A"⟩⟩]

/-- The module `C` sees `B` behind the qualifier `Q` and hands it on. -/
def sampleAlias : ModuleSource where
  name := ⟨"C"⟩
  imports := sampleImports ⟨"B"⟩ sampleTable (some ⟨"Q"⟩) ∅
  exportList := some [⟨.null, .module ⟨"Q"⟩⟩]

theorem publishAll_relay_sampleAlias : ∃ env',
    publishAll {} sampleEnvironment [sampleOpener, sampleAlias] = pure env' ∧
      env'.get? ⟨"C"⟩ = some (sampleTable.via ⟨"B"⟩) := by
  have hm : sampleEnvironment.get? ⟨"A"⟩ = some sampleTable := by
    simp [sampleEnvironment, Environment.get?]
  have hx : ∃ ns n, sampleTable.contains ns n := ⟨.value, "f", by decide +kernel⟩
  have hnew : ∀ u ∈ [sampleOpener, sampleAlias], sampleEnvironment.get? u.name = none := by
    decide +kernel
  have hopener : sampleOpener.HandsOn ⟨"A"⟩ sampleTable :=
    .opened .null rfl (by decide +kernel) (by decide +kernel)
  have halias : sampleAlias.HandsOn ⟨"B"⟩ (sampleTable.via ⟨"A"⟩) :=
    .behind .null ⟨"Q"⟩ rfl (by decide) (by decide +kernel) (by decide +kernel)
  have hrelay : Relay {} sampleEnvironment ⟨"A"⟩ [sampleOpener, sampleAlias] := by
    refine .cons hm hopener fun env' h => ?_
    obtain ⟨env₁, hp, hcommit⟩ :=
      publish_of_handsOn {} hopener hm hx (hnew _ List.mem_cons_self)
    obtain rfl : env₁ = env' := Except.ok.inj ((congrArg Logged.result hp).symm.trans h)
    refine .cons ?_ halias fun _ _ => .nil
    rw [Environment.get?_commit hcommit, if_pos rfl]
  obtain ⟨env', h, hlast⟩ := publishAll_relay hm hx hnew (by decide) hrelay
  exact ⟨env', h, hlast [sampleOpener] sampleAlias rfl⟩

end ModuleSource

end ModuleExports
