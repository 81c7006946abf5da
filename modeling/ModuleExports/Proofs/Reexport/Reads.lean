import ModuleExports.Proofs.Reexport.Published
import ModuleExports.Resolution

/-!
What a resolution reads of the environment. Main statement: only the other modules that its imports
come from, so that two environments which agree on these give the same outcome.
-/
namespace ModuleExports
open Std

namespace Imports
variable {i : Imports} {m : ModuleName}

/-- The modules that some visible name was imported from. -/
def sources (i : Imports) : List ModuleName :=
  i.tables.flatMap fun t => t.toList.flatMap fun e => e.2.map ImportRecord.module

theorem mem_sources {kind : NameKind} {key : QualifiedName} {records : List ImportRecord}
    (h : i.get? kind key = some records) {r : ImportRecord} (hr : r ∈ records) :
    r.module ∈ i.sources := by
  simp only [sources, tables, List.mem_flatMap, List.mem_map, exists_exists_and_eq_and]
  exact ⟨kind, kind.mem_all, (key, records), ExtTreeMap.mem_toList_iff_getElem?_eq_some.2 h, r, hr,
    rfl⟩

end Imports

namespace ModuleView
variable {env env' : Environment} {m x : ModuleName} {i : Imports} {settings : Settings}
  {span : Span}

theorem reexport_congr {constructors : List ImportRecord} {r : ImportRecord} {ns : Namespace}
    (h : env.get? r.module = env'.get? r.module) :
    (⟨env, m, i, settings⟩ : ModuleView).reexport constructors r ns =
      (⟨env', m, i, settings⟩ : ModuleView).reexport constructors r ns := by
  simp only [reexport, Environment.expect, h]

/-- Only the environment's entries for the modules of published records are read. -/
theorem moduleTable_congr (hx : x ≠ m) (h : ∀ k ∈ i.sources, k ≠ m → env.get? k = env'.get? k)
    (ns : Namespace) : (⟨env, m, i, settings⟩ : ModuleView).moduleTable x span ns =
      (⟨env', m, i, settings⟩ : ModuleView).moduleTable x span ns := by
  refine Logged.bind_congr fun records hr => Logged.bind_congr fun constructors _ => ?_
  have hread : ∀ r ∈ records, env.get? r.module = env'.get? r.module := by
    intro r hrec
    obtain ⟨key, hp⟩ := (mem_visible hr).1 hrec
    obtain ⟨known, hk, hmem, hm⟩ := hp.exists_mem hx
    exact h _ (Imports.mem_sources hk hmem) hm
  clear hr
  generalize (∅ : Table ns) = t
  induction records generalizing t with
  | nil => rfl
  | cons r records ih =>
    rw [List.foldlM_cons, List.foldlM_cons, reexport_congr (hread r List.mem_cons_self)]
    exact Logged.bind_congr fun u _ => ih (fun k hk => hread k (List.mem_cons_of_mem r hk)) u

theorem addRef_congr (h : ∀ k ∈ i.sources, k ≠ m → env.get? k = env'.get? k) :
    (⟨env, m, i, settings⟩ : ModuleView).addRef = (⟨env', m, i, settings⟩ : ModuleView).addRef := by
  funext candidate acc r
  unfold addRef
  split
  · rfl
  next x _ =>
    split
    · rfl
    next hx =>
      have htable : (⟨env, m, i, settings⟩ : ModuleView).moduleTable x r.span =
          (⟨env', m, i, settings⟩ : ModuleView).moduleTable x r.span :=
        funext (moduleTable_congr hx h)
      simp only [moduleInterface, htable]

end ModuleView

/-- A resolution reads nothing of the environment but the other modules that it imports from. -/
theorem ModuleSource.resolve_congr {m : ModuleSource} {env env' : Environment} {settings : Settings}
    (h : ∀ k ∈ m.imports.sources, k ≠ m.name → env.get? k = env'.get? k) :
    m.resolve env settings = m.resolve env' settings := by
  unfold resolve
  split
  · rfl
  next refs _ => simp only [ModuleView.complete, scope, ModuleView.addRef_congr h]

end ModuleExports
