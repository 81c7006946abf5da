import Mathlib.Data.List.Induction
import ModuleExports.Proofs.ExportList.Duplicates
import ModuleExports.Proofs.Interface.Entries
import ModuleExports.Proofs.Reexport.Precedence
import ModuleExports.Resolution

/-!
What a module publishes when nothing narrows it. Main statement: a name is a candidate exactly when
some declaration, in whatever group, declares it, the last of these counts, and all candidates are
published where there is no export list or one that lists only the module itself.
-/
namespace ModuleExports
open Interface

namespace Interface

theorem overlay_empty (x : Interface) : x.overlay ∅ = x :=
  ext_get? fun ns n => by simp

theorem get?_insert_empty {ms ns : Namespace} {name n : String} {d : Entry ms} {e : Entry ns} :
    ((∅ : Interface).insert ms name d).get? ns n = some e ↔
      (⟨ms, name, d⟩ : (ns : Namespace) × String × Entry ns) = ⟨ns, n, e⟩ := by
  by_cases hns : ns = ms
  · subst hns
    simp [get?_insert]
  · rw [get?_insert_of_ne ∅ name n d hns]
    simp [Ne.symm hns]

theorem get?_insert_plain (x : Interface) (o : Origin) (ms ns : Namespace) (name n : String) :
    (x.insert ms name (.plain o)).get? ns n =
      if ns = ms ∧ name = n then some (.plain o) else x.get? ns n := by
  by_cases hns : ns = ms
  · subst hns
    simp [get?_insert]
  · simp [get?_insert_of_ne x name n _ hns, hns]

theorem overlay_insert (x y : Interface) (ms : Namespace) (name : String) (d : Entry ms) :
    x.overlay (y.insert ms name d) = (x.overlay y).insert ms name d := by
  refine ext_get? fun ns n => ?_
  by_cases hns : ns = ms
  · subst hns
    simp only [get?_overlay, get?_insert]
    split <;> simp
  · simp only [get?_overlay, get?_insert_of_ne _ name n d hns]

end Interface

namespace Declaration
variable {o : Origin} {ns : Namespace} {n : String} {ds : List Declaration} {d : Declaration}

mutual

/-- The declaration, or those that a group is made of, through all groups within it. -/
def flatten : Declaration → List Declaration
  | .group members => flattenAll members
  | d => [d]

def flattenAll : List Declaration → List Declaration
  | [] => []
  | d :: ds => d.flatten ++ flattenAll ds

end

theorem declareAll_append (x : Interface) (ds es : List Declaration) :
    declareAll o x (ds ++ es) = declareAll o (declareAll o x ds) es := by
  induction ds generalizing x with
  | nil => simp [declareAll]
  | cons d ds ih => simp only [List.cons_append, declareAll, ih]

mutual

/-- Groups may be dissolved. -/
theorem declareAll_flatten (x : Interface) : (d : Declaration) →
    declareAll o x d.flatten = d.declare o x
  | .group members => by
    simp only [flatten, declare]
    exact declareAll_flattenAll x members
  | .data .. | .typeSynonym _ | .foreignType _ | .typeClass .. | .value _ | .foreignValue _
  | .valueFixity _ | .typeFixity _ | .typeInstance _ | .kindSignature _ => by
    simp only [flatten, declareAll]

theorem declareAll_flattenAll (x : Interface) : (ds : List Declaration) →
    declareAll o x (flattenAll ds) = declareAll o x ds
  | [] => rfl
  | d :: ds => by
    rw [flattenAll, declareAll_append, declareAll_flatten x d, declareAll_flattenAll _ ds,
      declareAll]

end

mutual

/-- What is declared comes on top of what is there. -/
theorem declare_overlay (x y : Interface) : (d : Declaration) →
    d.declare o (x.overlay y) = x.overlay (d.declare o y)
  | .group members => by
    simp only [declare]
    exact declareAll_overlay x y members
  | .typeClass name members => by
    simp only [declare, ← overlay_insert]
    exact List.foldl_hom x.overlay fun y member => (overlay_insert x y _ _ _).symm
  | .data .. | .typeSynonym _ | .foreignType _ | .value _ | .foreignValue _ | .valueFixity _
  | .typeFixity _ | .typeInstance _ | .kindSignature _ => by
    simp only [declare, overlay_insert]

theorem declareAll_overlay (x y : Interface) : (ds : List Declaration) →
    declareAll o (x.overlay y) ds = x.overlay (declareAll o y ds)
  | [] => rfl
  | d :: ds => by
    simp only [declareAll]
    rw [declare_overlay x y d, declareAll_overlay x _ ds]

end

/-- The declaration by itself, whatever its group, declares the name with the payload. -/
inductive Declares : Declaration → (ns : Namespace) → String → Payload ns → Prop where
  | data {n : String} {cs : List String} : Declares (.data n cs) .type n cs
  | typeSynonym {n : String} : Declares (.typeSynonym n) .type n []
  | foreignType {n : String} : Declares (.foreignType n) .type n []
  | typeClass {n : String} {members : List ClassMember} :
      Declares (.typeClass n members) .typeClass n ()
  | member {c : String} {members : List ClassMember} {member : ClassMember} : member ∈ members →
      Declares (.typeClass c members) .value member.name ()
  | value {n : String} : Declares (.value n) .value n ()
  | foreignValue {n : String} : Declares (.foreignValue n) .value n ()
  | valueFixity {n : String} : Declares (.valueFixity n) .valueOperator n ()
  | typeFixity {n : String} : Declares (.typeFixity n) .typeOperator n ()

theorem get?_foldl_members (x : Interface) (members : List ClassMember) :
    (members.foldl (fun x member => x.insert .value member.name (.plain o)) x).get? ns n =
      if ns = .value ∧ ∃ member ∈ members, member.name = n then some (.plain o)
      else x.get? ns n := by
  induction members generalizing x with
  | nil => simp
  | cons member members ih =>
    rw [List.foldl_cons, ih, get?_insert_plain]
    by_cases hns : ns = .value <;> by_cases hn : member.name = n <;> simp [hns, hn]

/-- What a single declaration declares. -/
theorem get?_declare {e : Entry ns} (hd : ∀ members, d ≠ .group members) :
    (d.declare o ∅).get? ns n = some e ↔ d.Declares ns n e.payload ∧ e.origin = o := by
  cases d with
  | group members => exact absurd rfl (hd members)
  | typeInstance | kindSignature =>
    simp only [declare, get?_empty]
    refine ⟨nofun, fun ⟨h, _⟩ => ?_⟩
    cases h
  | typeClass name members =>
    rw [declare, get?_foldl_members]
    split
    next h =>
      obtain ⟨rfl, member, hm, rfl⟩ := h
      constructor
      · rintro ⟨⟩
        exact ⟨.member hm, rfl⟩
      · rintro ⟨-, rfl⟩
        rfl
    next h =>
      rw [get?_insert_empty]
      constructor
      · rintro ⟨⟩
        exact ⟨.typeClass, rfl⟩
      · rintro ⟨hd, rfl⟩
        cases hd with
        | typeClass => rfl
        | member hm => exact absurd ⟨rfl, _, hm, rfl⟩ h
  | data | typeSynonym | foreignType | value | foreignValue | valueFixity | typeFixity =>
    rw [declare, get?_insert_empty]
    constructor
    · rintro ⟨⟩
      exact ⟨by constructor, rfl⟩
    · obtain ⟨p, t⟩ := e
      rintro ⟨h, rfl⟩
      cases h
      rfl

/-- The last of the declarations that declare the name declares it with the payload. -/
def LastDeclares (ds : List Declaration) (ns : Namespace) (n : String) (p : Payload ns) : Prop :=
  ∃ before d after, ds = before ++ d :: after ∧ d.Declares ns n p ∧
    ∀ b ∈ after, ∀ q, ¬ b.Declares ns n q

theorem lastDeclares_concat {p : Payload ns} : LastDeclares (ds ++ [d]) ns n p ↔
    d.Declares ns n p ∨ (∀ q, ¬ d.Declares ns n q) ∧ LastDeclares ds ns n p := by
  constructor
  · rintro ⟨before, c, after, hds, hc, hafter⟩
    rcases List.eq_nil_or_concat after with rfl | ⟨after, b, rfl⟩
    · obtain ⟨rfl, ⟨⟩⟩ := List.append_inj' hds rfl
      exact .inl hc
    · rw [List.concat_eq_append, ← List.cons_append, ← List.append_assoc] at hds
      obtain ⟨rfl, ⟨⟩⟩ := List.append_inj' hds rfl
      have hrest : ∀ b ∈ after, ∀ q, ¬ b.Declares ns n q := fun b hb => hafter b (by simp [hb])
      exact .inr ⟨hafter d (by simp), before, c, after, rfl, hc, hrest⟩
  · rintro (hd | ⟨hd, before, c, after, rfl, hc, hafter⟩)
    · exact ⟨ds, d, [], rfl, hd, by simp⟩
    · refine ⟨before, c, after ++ [d], by simp, hc, fun b hb => ?_⟩
      rcases List.mem_append.1 hb with hb | hb
      · exact hafter b hb
      · exact List.mem_singleton.1 hb ▸ hd

theorem exists_lastDeclares_iff :
    (∃ p, LastDeclares ds ns n p) ↔ ∃ d ∈ ds, ∃ p, d.Declares ns n p := by
  induction ds using List.reverseRecOn with
  | nil => simp [LastDeclares]
  | append_singleton ds d ih =>
    simp only [lastDeclares_concat, List.mem_append, List.mem_singleton, or_and_right, exists_or,
      exists_eq_left, exists_and_left, ih]
    by_cases hd : ∃ p, d.Declares ns n p
    · simp [hd]
    · simp [not_exists.1 hd]

mutual

theorem ne_group_of_mem_flatten {members : List Declaration} : (d : Declaration) →
    .group members ∉ d.flatten
  | .group ds => by
    rw [flatten]
    exact ne_group_of_mem_flattenAll ds
  | .data .. | .typeSynonym _ | .foreignType _ | .typeClass .. | .value _ | .foreignValue _
  | .valueFixity _ | .typeFixity _ | .typeInstance _ | .kindSignature _ => by
    simp [flatten]

theorem ne_group_of_mem_flattenAll {members : List Declaration} : (ds : List Declaration) →
    .group members ∉ flattenAll ds
  | [] => by simp [flattenAll]
  | d :: ds => by
    rw [flattenAll, List.mem_append, not_or]
    exact ⟨ne_group_of_mem_flatten d, ne_group_of_mem_flattenAll ds⟩

end

end Declaration

namespace Interface
open Declaration
variable {m : ModuleName} {ds : List Declaration} {ns : Namespace} {n : String}

theorem candidate_flattenAll (m : ModuleName) (ds : List Declaration) :
    candidate m (flattenAll ds) = candidate m ds :=
  declareAll_flattenAll ∅ ds

/-- The candidates of two lists of declarations together; those of the second come on top. -/
theorem candidate_append (m : ModuleName) (ds es : List Declaration) :
    candidate m (ds ++ es) = (candidate m ds).overlay (candidate m es) := by
  have h := declareAll_overlay (o := .declared m) (candidate m ds) ∅ es
  rw [overlay_empty] at h
  rw [candidate, declareAll_append]
  exact h

theorem get?_candidate_of_flat {e : Entry ns} (hds : ∀ members, .group members ∉ ds) :
    (candidate m ds).get? ns n = some e ↔
      LastDeclares ds ns n e.payload ∧ e.origin = .declared m := by
  -- From the end, where the declaration stands whose candidates are on top.
  induction ds using List.reverseRecOn generalizing e with
  | nil => simp [candidate, declareAll, LastDeclares]
  | append_singleton ds d ih =>
    have ih {e : Entry ns} := ih (e := e) fun members h => hds members (List.mem_append_left _ h)
    have hd {e : Entry ns} : (candidate m [d]).get? ns n = some e ↔
        d.Declares ns n e.payload ∧ e.origin = .declared m := by
      refine get?_declare fun members h => hds members ?_
      simp [h]
    have hnone : (candidate m [d]).get? ns n = none ↔ ∀ q, ¬ d.Declares ns n q := by
      rw [Option.eq_none_iff_forall_ne_some]
      constructor
      · intro h q hq
        exact h ⟨q, .declared m⟩ (hd.2 ⟨hq, rfl⟩)
      · intro h e he
        exact h _ (hd.1 he).1
    rw [candidate_append, get?_overlay, Option.or_eq_some_iff, hd, hnone, ih, lastDeclares_concat,
      or_and_right, and_assoc]

/-- A name is a candidate with what the last of its declarations gives it. -/
theorem get?_candidate {e : Entry ns} : (candidate m ds).get? ns n = some e ↔
    LastDeclares (flattenAll ds) ns n e.payload ∧ e.origin = .declared m := by
  rw [← candidate_flattenAll]
  exact get?_candidate_of_flat fun _ => ne_group_of_mem_flattenAll ds

example : (candidate ⟨"M"⟩ [.group [.data "T" ["A"], .group [.typeSynonym "T"]]]).constructors? "T" =
    some [] :=
  rfl

/-- A name is a candidate exactly when some declaration declares it. -/
theorem contains_candidate : (candidate m ds).contains ns n ↔
    ∃ d ∈ flattenAll ds, ∃ p, d.Declares ns n p := by
  rw [contains, Option.isSome_iff_exists, ← exists_lastDeclares_iff]
  constructor
  · intro ⟨e, he⟩
    exact ⟨e.payload, (get?_candidate.1 he).1⟩
  · intro ⟨p, hp⟩
    exact ⟨⟨p, .declared m⟩, get?_candidate.2 ⟨hp, rfl⟩⟩

end Interface

namespace ModuleSource
open Interface
variable {s : ModuleSource} {env : Environment} {settings : Settings}

/-- All candidates are published without a warning where no list narrows them, or one that lists
only the module itself. -/
theorem resolve_unnarrowed (h : s.exportList = none ∨
    ∃ span, s.exportList = some [⟨span, .module s.name⟩]) :
    s.resolve env settings = ⟨[], .ok s.candidate⟩ := by
  rcases h with h | ⟨span, h⟩
  · rw [resolve, h]
    rfl
  · have hnarrow : s.candidate.narrow s.name [⟨span, .module s.name⟩] = .ok ∅ := rfl
    have hcomplete : (s.scope env settings).complete s.candidate ∅ [⟨span, .module s.name⟩] =
        pure s.candidate := by
      rw [ModuleView.complete_cons_own rfl, overlay_empty]
      rfl
    have hok : (.ofExcept (.ok ∅) : Outcome Interface) = pure ∅ := rfl
    have hquiet : (.emitAll [] : Outcome Unit) = pure () := rfl
    simp only [resolve, h, hnarrow, hok, pure_bind, hcomplete, ExportRef.duplicates_module, hquiet]
    split <;> rfl

end ModuleSource

namespace Interface
open Declaration

/-- The candidates of a module are what its declarations declare, and what it publishes when nothing
narrows them. -/
theorem candidate_exact (m : ModuleName) (ds : List Declaration) :
    candidate m ds = candidate m (flattenAll ds) ∧
    (∀ es, candidate m (ds ++ es) = (candidate m ds).overlay (candidate m es)) ∧
    (∀ ns n, (candidate m ds).contains ns n ↔ ∃ d ∈ flattenAll ds, ∃ p, d.Declares ns n p) ∧
    (∀ ns n e, (candidate m ds).get? ns n = some e ↔
      LastDeclares (flattenAll ds) ns n e.payload ∧ e.origin = ⟨m, none⟩) ∧
    (∀ n, candidate m [.typeInstance n] = ∅ ∧ candidate m [.kindSignature n] = ∅) ∧
    ∀ imports env settings,
      (ModuleSource.mk m ds imports none).resolve env settings = ⟨[], .ok (candidate m ds)⟩ ∧
      ∀ span, (ModuleSource.mk m ds imports (some [⟨span, .module m⟩])).resolve env settings =
        ⟨[], .ok (candidate m ds)⟩ := by
  refine ⟨(candidate_flattenAll m ds).symm, candidate_append m ds, fun _ _ => contains_candidate,
    fun _ _ _ => get?_candidate, fun n => ?_, fun imports env settings => ⟨?_, fun span => ?_⟩⟩
  · simp [candidate, declareAll, declare]
  · exact ModuleSource.resolve_unnarrowed (.inl rfl)
  · exact ModuleSource.resolve_unnarrowed (.inr ⟨span, rfl⟩)

end Interface

end ModuleExports
