import Mathlib
import ModuleExports.Proofs.ExportList.Narrowing
import ModuleExports.Proofs.Provenance.Resolution
import ModuleExports.Proofs.Reexport.Precedence
import ModuleExports.Proofs.Resolution.Candidate

/-!
Which constructors a module publishes with its own types, and in which order. Main statement: where
the export list has no ref to another module, a published type has the constructors that the list
names with it, each where it is named first, else all in the order of their declaration.
-/
namespace ModuleExports
open Std

namespace Declaration

mutual

/-- The types that a declaration introduces, with the constructors of each. -/
def types : Declaration → List (String × List String)
  | .data name constructors => [(name, constructors)]
  | .typeSynonym name | .foreignType name => [(name, [])]
  | .group members => typesAll members
  | .typeClass .. | .value _ | .foreignValue _ | .valueFixity _ | .typeFixity _ | .typeInstance _
  | .kindSignature _ => []

def typesAll : List Declaration → List (String × List String)
  | [] => []
  | d :: ds => d.types ++ typesAll ds

end

/-- No type name is declared twice, and no type has a constructor twice. -/
structure TypesOnce (ds : List Declaration) : Prop where
  names : ((typesAll ds).map Prod.fst).Nodup
  constructors : ∀ t ∈ typesAll ds, t.2.Nodup

theorem typesAll_append (ds es : List Declaration) :
    typesAll (ds ++ es) = typesAll ds ++ typesAll es := by
  induction ds with
  | nil => simp [typesAll]
  | cons d ds ih => simp [typesAll, ih]

mutual

theorem typesAll_flatten : (d : Declaration) → typesAll d.flatten = d.types
  | .group members => by
    simp only [flatten, types]
    exact typesAll_flattenAll members
  | .data .. | .typeSynonym _ | .foreignType _ | .typeClass .. | .value _ | .foreignValue _
  | .valueFixity _ | .typeFixity _ | .typeInstance _ | .kindSignature _ => by
    simp [flatten, typesAll]

theorem typesAll_flattenAll : (ds : List Declaration) → typesAll (flattenAll ds) = typesAll ds
  | [] => rfl
  | d :: ds => by
    rw [flattenAll, typesAll_append, typesAll_flatten d, typesAll_flattenAll ds, typesAll]

end

/-- A candidate type has the constructors of a declaration. -/
theorem mem_typesAll_of_candidate {m : ModuleName} {ds : List Declaration} {n : String}
    {e : Entry .type} (h : (Interface.candidate m ds).get? .type n = some e) :
    (n, e.constructors) ∈ typesAll ds := by
  obtain ⟨⟨before, d, after, hds, hd, -⟩, -⟩ := Interface.get?_candidate.1 h
  have hmem : (n, e.constructors) ∈ d.types := by
    obtain ⟨p, o⟩ := e
    cases hd <;> simp [types, Entry.constructors, Payload.constructors]
  rw [← typesAll_flattenAll, hds, typesAll_append, typesAll]
  exact List.mem_append_right _ (List.mem_append_left _ hmem)

theorem TypesOnce.eq {ds : List Declaration} (h : TypesOnce ds) {n : String} {cs bs : List String}
    (hc : (n, cs) ∈ typesAll ds) (hb : (n, bs) ∈ typesAll ds) : cs = bs :=
  congrArg Prod.snd (List.inj_on_of_nodup_map h.names hc hb rfl)

end Declaration

namespace ModuleSource
variable {m : ModuleSource} {env : Environment} {settings : Settings} {x : Interface} {n : String}
  {e : Entry .type}

/-- The refs of the export list, if there is one. -/
def refs (m : ModuleSource) : List ExportRef := m.exportList.getD []

theorem refs_eq {refs : List ExportRef} (h : m.exportList = some refs) : m.refs = refs := by
  rw [ModuleSource.refs, h, Option.getD_some]

/-- No ref of the export list is to another module. -/
def ExportsOwn (m : ModuleSource) : Prop :=
  ∀ r ∈ m.refs, ∀ a ∈ r.item.module?, a = m.name

instance : Decidable m.ExportsOwn :=
  inferInstanceAs (Decidable (∀ r ∈ m.refs, ∀ a ∈ r.item.module?, a = m.name))

theorem ExportsOwn.foreignRefs (h : m.ExportsOwn) (env : Environment) (settings : Settings) :
    (m.scope env settings).foreignRefs m.refs = [] := by
  refine List.filter_eq_nil_iff.2 fun r hr => ?_
  cases hi : r.item.module? with
  | none => simp
  | some a => simp [h r hr a hi, scope]

/-- A published type has the constructors that the list names, else all that are declared. -/
theorem constructors_eq_getD (h : m.ExportsOwn) (hx : (m.resolve env settings).result = .ok x)
    (he : x.get? .type n = some e) : ∃ f, m.candidate.get? .type n = some f ∧
      e.constructors ⊆ f.constructors ∧
        e.constructors = (ExportRef.listed? m.refs n).getD f.constructors := by
  rcases resolve_eq_ok hx with ⟨hlist, rfl⟩ | ⟨refs, narrowed, hlist, hnarrow, hx⟩
  · have hlisted : ExportRef.listed? m.refs n = none := by
      simp [refs, hlist, ExportRef.listed?, ExportRef.listings]
    exact ⟨e, he, fun _ hc => hc, by rw [hlisted, Option.getD_none]⟩
  · obtain rfl := refs_eq hlist
    rw [ModuleView.get?_complete hx, ModuleView.lastPublished?, h.foreignRefs] at he
    simp only [List.reverse_nil, List.findSome?_nil, Option.none_or, Option.or_eq_some_iff] at he
    obtain ⟨hsome, hentry⟩ := Interface.get?_narrow_type (n := n) hnarrow
    obtain ⟨hrequest, hjoined⟩ := @TypeRequest.getElem?_ofRefs m.refs n
    -- An entry of the narrowed table comes of a request, any other of the module itself.
    rcases he with he | ⟨hnone, he⟩
    · obtain ⟨q, hq, hn⟩ := hentry e he
      obtain ⟨f, hf, -, hsub, hc⟩ := Interface.exists_of_narrowType hn
      have hlistings : ExportRef.listings m.refs n ≠ [] := hrequest.1 (by simp [hq])
      have hlisted : ExportRef.listed? m.refs n = q.constructors := by
        rw [ExportRef.listed?, if_neg hlistings, ← hjoined .null, hq, Option.getD_some]
      exact ⟨f, hf, hsub, by rw [hlisted, hc]⟩
    · have hlistings : ExportRef.listings m.refs n = [] := by
        by_contra hne
        have hn := hsome.2 (hrequest.2 hne)
        simp [hnone] at hn
      have hlisted : ExportRef.listed? m.refs n = none := by
        rw [ExportRef.listed?, if_pos hlistings]
      split at he
      · exact ⟨e, he, fun _ hc => hc, by rw [hlisted, Option.getD_none]⟩
      · cases he

/-- A published type has no constructor twice and none that is not declared with it. Where the list
names constructors it has these, in the order of the list; else all, in that of the declaration. -/
theorem constructors_resolve (honce : Declaration.TypesOnce m.declarations) (h : m.ExportsOwn)
    (hx : (m.resolve env settings).result = .ok x) (he : x.get? .type n = some e) :
    ∃ cs, (∀ bs, (n, bs) ∈ Declaration.typesAll m.declarations ↔ bs = cs) ∧
      e.constructors.Nodup ∧ e.constructors ⊆ cs ∧
      e.constructors = (ExportRef.listed? m.refs n).getD cs ∧
      (e.constructors.Sublist cs ↔ ∀ ls, ExportRef.listed? m.refs n = some ls → ls.Sublist cs) := by
  obtain ⟨f, hf, hsub, hc⟩ := constructors_eq_getD h hx he
  have hmem := Declaration.mem_typesAll_of_candidate hf
  refine ⟨f.constructors, fun bs => ⟨fun hb => honce.eq hb hmem, ?_⟩, ?_, hsub, hc, ?_⟩
  · rintro rfl
    exact hmem
  · rw [hc]
    cases hl : ExportRef.listed? m.refs n with
    | none => exact honce.constructors _ hmem
    | some ls => exact ExportRef.nodup_of_listed? hl
  · rw [hc]
    cases hl : ExportRef.listed? m.refs n with
    | none => simp
    | some ls => simp

/-- The module `M` lists constructors of `T` twice, and takes in all else that it declares. -/
def sampleLists : ModuleSource where
  name := ⟨"M"⟩
  declarations := [.data "T" ["A", "B", "C"], .group [.data "U" ["D", "E"]]]
  exportList := some [⟨.null, .type "T" (some ["A"])⟩, ⟨.null, .module ⟨"M"⟩⟩,
    ⟨.null, .type "T" (some ["C", "A"])⟩]

theorem constructors_resolve_sampleLists : ∃ x e,
    (sampleLists.resolve ⟨∅⟩ {}).result = .ok x ∧ x.get? .type "T" = some e ∧
      e.constructors = ["A", "C"] ∧ e.constructors.Sublist ["A", "B", "C"] := by
  have honce : Declaration.TypesOnce sampleLists.declarations := ⟨by decide, by decide⟩
  have hown : sampleLists.ExportsOwn := by decide
  have hlisted : ExportRef.listed? sampleLists.refs "T" = some ["A", "C"] := by decide
  obtain ⟨x, hx, hc⟩ : ∃ x, (sampleLists.resolve ⟨∅⟩ {}).result = .ok x ∧
      x.constructors? "T" = some ["A", "C"] := except_map_eq_ok.1 (by cbv)
  obtain ⟨e, he, hec⟩ := Option.map_eq_some_iff.1 hc
  obtain ⟨cs, hcs, -, -, -, horder⟩ := constructors_resolve honce hown hx he
  obtain rfl := (hcs ["A", "B", "C"]).1 (by decide)
  refine ⟨x, e, hx, he, hec, horder.2 fun ls hls => ?_⟩
  obtain rfl := Option.some.inj (hlisted.symm.trans hls)
  decide

/-- The module `M` lists the constructors of `T` in another order than it declares them in. -/
def sampleReversed : ModuleSource where
  name := ⟨"M"⟩
  declarations := [.data "T" ["A", "B"]]
  exportList := some [⟨.null, .type "T" (some ["B", "A"])⟩]

theorem not_sublist_sampleReversed : Declaration.TypesOnce sampleReversed.declarations ∧
    sampleReversed.ExportsOwn ∧ ∃ x, (sampleReversed.resolve ⟨∅⟩ {}).result = .ok x ∧
      x.constructors? "T" = some ["B", "A"] ∧ ¬ ["B", "A"].Sublist ["A", "B"] := by
  obtain ⟨x, hx, hc⟩ : ∃ x, (sampleReversed.resolve ⟨∅⟩ {}).result = .ok x ∧
      x.constructors? "T" = some ["B", "A"] := except_map_eq_ok.1 (by cbv)
  exact ⟨⟨by decide, by decide⟩, by decide, x, hx, hc, by decide⟩

end ModuleSource

end ModuleExports
