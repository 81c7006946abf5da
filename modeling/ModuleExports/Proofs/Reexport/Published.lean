import Mathlib.Data.List.Induction
import ModuleExports.ExportList.ModuleRefs
import ModuleExports.Proofs.Import.Settling

/-!
What a ref to another module publishes, record by record. Main statements: the records that a ref
publishes are the settled ones of the keys that belong to it, and the table that it makes has the
entry of the last record of each name, looked up where the record was imported from.
-/
namespace ModuleExports
open Std

/-- What holds of all records in a table can be tested entry by entry. -/
theorem Imports.forall_get?_iff {i : Imports} {kind : NameKind}
    {P : QualifiedName → List ImportRecord → Prop} :
    (∀ key records, i.get? kind key = some records → P key records) ↔
      ∀ e ∈ (i.table kind).toList, P e.1 e.2 := by
  simp only [Prod.forall, ExtTreeMap.mem_toList_iff_getElem?_eq_some]
  rfl

/-- What holds of all records in all tables can be tested entry by entry. -/
theorem Imports.forall_kind_get?_iff {i : Imports}
    {P : NameKind → QualifiedName → List ImportRecord → Prop} :
    (∀ kind key records, i.get? kind key = some records → P kind key records) ↔
      ∀ kind ∈ NameKind.all, ∀ e ∈ (i.table kind).toList, P kind e.1 e.2 := by
  simp only [NameKind.mem_all, forall_const]
  exact forall_congr' fun kind => forall_get?_iff

theorem Imports.isQualifier_iff {i : Imports} {m : ModuleName} :
    i.isQualifier m ↔ ∃ kind key records, i.get? kind key = some records ∧ key.module = some m := by
  simp only [isQualifier, tables, List.any_eq_true, List.mem_map, exists_exists_eq_and,
    ExtTreeMap.mem_keys, ExtTreeMap.mem_iff_isSome_getElem?, Option.isSome_iff_exists,
    QualifiedName.hasQualifier, beq_iff_eq, get?, NameKind.mem_all, true_and, exists_and_right]

/-- Records are added to those of one name; none can be added as those of a module. -/
theorem Imports.get?_append (i : Imports) {k : NameKind} (hk : k ≠ .module) (key : QualifiedName)
    (rs : List ImportRecord) (l : NameKind) (other : QualifiedName) :
    (i.append k key rs).get? l other =
      if l = k ∧ other = key then some ((i.get? k key).getD [] ++ rs) else i.get? l other := by
  by_cases hl : l = k
  · subst hl
    simp only [get?, append, table_withTable i _ hk, ImportTable.append, ImportTable.records,
      ExtTreeMap.getElem?_insert, LawfulEqCmp.compare_eq_iff_eq, true_and]
    simp only [eq_comm]
  · simp [get?, append, table_withTable_of_ne i _ hl, hl]

@[simp] theorem Imports.unqualified_append (i : Imports) (k : NameKind) (key : QualifiedName)
    (rs : List ImportRecord) : (i.append k key rs).unqualified = i.unqualified := by
  cases k with
  | inNamespace ns => cases ns <;> rfl
  | _ => rfl

namespace ModuleView
variable {s : ModuleView} {x : ModuleName} {span : Span}

/-- What the module sees with other imports. -/
def withImports (s : ModuleView) (i : Imports) : ModuleView := { s with imports := i }

/-- A ref to `x` publishes `r` for the visible name `key`. -/
def Publishes (s : ModuleView) (x : ModuleName) (span : Span) (kind : NameKind)
    (key : QualifiedName) (r : ImportRecord) : Prop :=
  ∃ records settled, s.imports.get? kind key = some records ∧ s.belongs x key records ∧
    ((s.site span kind key.name).settle records).result = .ok settled ∧
    s.published? x settled records = some r

theorem published?_eq_some {settled r : ImportRecord} {records : List ImportRecord}
    (h : s.published? x settled records = some r) :
    settled.module ≠ s.module ∧
      (r = settled ∨ r ∈ records ∧ r.module = x ∧ r.home = settled.home) := by
  unfold published? at h
  split at h
  next => cases h
  next hm =>
    refine ⟨hm, ?_⟩
    split at h
    · exact .inl (Option.some.inj h).symm
    · have hr := List.find?_some h
      simp only [Bool.and_eq_true, beq_iff_eq] at hr
      exact .inr ⟨List.mem_of_find?_eq_some h, hr⟩

/-- A ref to another module publishes only what was imported from another module. -/
theorem Publishes.exists_mem {kind : NameKind} {key : QualifiedName} {r : ImportRecord}
    (h : s.Publishes x span kind key r) (hx : x ≠ s.module) :
    ∃ records, s.imports.get? kind key = some records ∧ r ∈ records ∧ r.module ≠ s.module := by
  obtain ⟨records, settled, hk, -, hs, hp⟩ := h
  obtain ⟨hm, rfl | ⟨hr, rfl, -⟩⟩ := published?_eq_some hp
  · exact ⟨records, hk, UseSite.mem_of_settle hs, hm⟩
  · exact ⟨records, hk, hr, hx⟩

theorem mem_visible {kind : NameKind} {found : List ImportRecord}
    (h : (s.visible x span kind).result = .ok found) {r : ImportRecord} :
    r ∈ found ↔ ∃ key, s.Publishes x span kind key r := by
  obtain ⟨options, ho, h⟩ := Logged.result_bind_eq_ok.1 h
  rw [Logged.result_mapM] at ho
  obtain rfl := except_pure_eq_ok.1 h
  simp only [List.mem_filterMap, id_eq, exists_eq_right, mem_of_mapM_eq_ok ho, List.mem_filter,
    ExtTreeMap.mem_toList_iff_getElem?_eq_some, Logged.result_bind_eq_ok, Logged.result_pure,
    Except.ok.injEq, Prod.exists, Publishes, Imports.get?]
  grind

theorem reexport_eq_ok {constructors : List ImportRecord} {r : ImportRecord} {ns : Namespace}
    {e : Entry ns} :
    s.reexport constructors r ns = .ok e ↔ ∃ y f, s.env.get? r.module = some y ∧
      y.get? ns r.name = some f ∧
      e = f.reexported r.module fun c =>
        constructors.any fun k => k.module == r.module && k.name == c := by
  rw [reexport, except_bind_eq_ok, Environment.expect]
  cases hy : s.env.get? r.module with
  | none => simp
  | some y =>
    cases hf : y.get? ns r.name with
    | none => simp [hf]
    | some f => simpa [hf] using eq_comm

/-- Of the records with one name the last one counts. -/
theorem get?_of_foldlM_insert {ns : Namespace} {f : ImportRecord → Except Failure (Entry ns)}
    {records : List ImportRecord} {t : Table ns}
    (h : records.foldlM (fun (t : Table ns) r => do return t.insert r.name (← f r)) ∅ = .ok t)
    {n : String} {e : Entry ns} :
    t[n]? = some e ↔ ∃ r, (records.filter (·.name == n)).getLast? = some r ∧ f r = .ok e := by
  induction records using List.reverseRecOn generalizing t with
  | nil =>
    obtain rfl := except_pure_eq_ok.1 h
    simp
  | append_singleton records r ih =>
    rw [List.foldlM_append] at h
    obtain ⟨u, hu, h⟩ := except_bind_eq_ok.1 h
    obtain ⟨d, hd, rfl⟩ : ∃ d, f r = .ok d ∧ u.insert r.name d = t := by
      simpa [except_map_eq_ok] using h
    by_cases hn : r.name = n
    · simp [hn, hd]
    · simp [ExtTreeMap.getElem?_insert, hn, ih hu]

theorem get?_moduleTable {ns : Namespace} {t : Table ns}
    (h : (s.moduleTable x span ns).result = .ok t) :
    ∃ records constructors, (s.visible x span ns).result = .ok records ∧
      (s.visibleConstructors x span ns).result = .ok constructors ∧
      ∀ n e, t[n]? = some e ↔ ∃ r, (records.filter (·.name == n)).getLast? = some r ∧
        s.reexport constructors r ns = .ok e := by
  obtain ⟨records, hr, h⟩ := Logged.result_bind_eq_ok.1 h
  obtain ⟨constructors, hc, h⟩ := Logged.result_bind_eq_ok.1 h
  refine ⟨records, constructors, hr, hc, fun n e => get?_of_foldlM_insert ?_⟩
  simpa [Logged.result_foldlM, Logged.result_map] using h

/-- An entry that a ref publishes is that of a record, taken over from where it was imported. -/
theorem exists_publishes_of_moduleTable {ns : Namespace} {t : Table ns}
    (h : (s.moduleTable x span ns).result = .ok t) {n : String} {e : Entry ns}
    (he : t[n]? = some e) : ∃ key r constructors, s.Publishes x span ns key r ∧ r.name = n ∧
      s.reexport constructors r ns = .ok e := by
  obtain ⟨records, constructors, hr, -, ht⟩ := get?_moduleTable h
  obtain ⟨r, hl, hr'⟩ := (ht n e).1 he
  have hm := List.mem_filter.1 (List.mem_of_getLast? hl)
  obtain ⟨key, hp⟩ := (mem_visible hr).1 hm.1
  exact ⟨key, r, constructors, hp, by simpa using hm.2, hr'⟩

/-- A ref publishes the names of the records that it publishes. -/
theorem contains_moduleTable {ns : Namespace} {t : Table ns}
    (h : (s.moduleTable x span ns).result = .ok t) {n : String} :
    t[n]?.isSome ↔ ∃ key r, s.Publishes x span ns key r ∧ r.name = n := by
  constructor
  · intro hn
    obtain ⟨e, he⟩ := Option.isSome_iff_exists.1 hn
    obtain ⟨key, r, constructors, hp, hr, -⟩ := exists_publishes_of_moduleTable h he
    exact ⟨key, r, hp, hr⟩
  · rintro ⟨key, r, hp, rfl⟩
    obtain ⟨records, hr, h⟩ := Logged.result_bind_eq_ok.1 h
    obtain ⟨constructors, -, h⟩ := Logged.result_bind_eq_ok.1 h
    have h : records.foldlM (fun (t : Table ns) r => do
        return t.insert r.name (← s.reexport constructors r ns)) ∅ = .ok t := by
      simpa [Logged.result_foldlM, Logged.result_map] using h
    have hmem : r ∈ records.filter (·.name == r.name) :=
      List.mem_filter.2 ⟨(mem_visible hr).2 ⟨key, hp⟩, beq_self_eq_true _⟩
    have hlast := List.getLast?_eq_some_getLast (List.ne_nil_of_mem hmem)
    obtain ⟨u, v, hv⟩ := exists_of_foldlM_eq_ok h _
      (List.mem_of_mem_filter (List.mem_of_getLast? hlast))
    obtain ⟨e, he, -⟩ := except_bind_eq_ok.1 hv
    exact Option.isSome_iff_exists.2 ⟨e, (get?_of_foldlM_insert h).2 ⟨_, hlast, he⟩⟩

end ModuleView

namespace Interface

theorem table_of_ofTablesM {ω ε : Type} {t : (ns : Namespace) → Logged ω ε (Table ns)}
    {x : Interface} (h : (ofTablesM t).result = .ok x) (ns : Namespace) :
    (t ns).result = .ok (x.table ns) := by
  simp only [ofTablesM, Logged.result_bind_eq_ok] at h
  obtain ⟨_, h₁, _, h₂, _, h₃, _, h₄, _, h₅, h⟩ := h
  obtain rfl := except_pure_eq_ok.1 h
  cases ns <;> assumption

end Interface

namespace ModuleView
variable {s : ModuleView} {x : ModuleName} {span : Span}

theorem moduleTable_of_moduleInterface {y : Interface}
    (h : (s.moduleInterface x span).result = .ok y) (ns : Namespace) :
    (s.moduleTable x span ns).result = .ok (y.table ns) := by
  rw [moduleInterface] at h
  split at h
  · exact Interface.table_of_ofTablesM h ns
  · cases h

end ModuleView

end ModuleExports
