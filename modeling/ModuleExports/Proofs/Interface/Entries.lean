import ModuleExports.ExportList.Narrowing
import ModuleExports.Interface.Candidate
import ModuleExports.Proofs.Outcome.Result

/-!
What holds of every entry of a table. Main statements: a property of all entries is kept by each way
to make a table, every candidate is declared by its own module, and narrowing keeps candidates with
some of their constructors.
-/
namespace ModuleExports

namespace Interface
variable {x y : Interface} {P : (ns : Namespace) → String → Entry ns → Prop}

/-- The property holds of every entry of the table. -/
def Forall (x : Interface) (P : (ns : Namespace) → String → Entry ns → Prop) : Prop :=
  ∀ ns n e, x.get? ns n = some e → P ns n e

/-- The entry is that of the name in `candidate`, with some of its constructors. -/
def KeptFrom (candidate : Interface) (ns : Namespace) (n : String) (e : Entry ns) : Prop :=
  ∃ f, candidate.get? ns n = some f ∧ e.origin = f.origin ∧ e.constructors ⊆ f.constructors

theorem forall_empty : (∅ : Interface).Forall P := by
  intro ns n e h
  simp at h

theorem Forall.imp {Q : (ns : Namespace) → String → Entry ns → Prop} (hx : x.Forall P)
    (h : ∀ ns n e, P ns n e → Q ns n e) : x.Forall Q :=
  fun ns n e he => h ns n e (hx ns n e he)

theorem Forall.insert (hx : x.Forall P) {ns : Namespace} {n : String} {e : Entry ns}
    (h : P ns n e) : (x.insert ns n e).Forall P := by
  intro ms m d hd
  by_cases hns : ms = ns
  · subst hns
    rw [get?_insert] at hd
    split at hd
    next hn =>
      obtain rfl := Option.some.inj hd
      exact hn ▸ h
    next => exact hx _ _ _ hd
  · rw [get?_insert_of_ne x n m e hns] at hd
    exact hx _ _ _ hd

theorem Forall.overlay (hx : x.Forall P) (hy : y.Forall P) : (x.overlay y).Forall P := by
  intro ns n e he
  rw [get?_overlay, Option.or_eq_some_iff] at he
  rcases he with he | ⟨-, he⟩
  · exact hy ns n e he
  · exact hx ns n e he

end Interface

namespace Declaration
open Interface

/-- The declaration, or one in a group that it is, declares the type `n` with these constructors. -/
inductive DeclaresType (n : String) (constructors : List String) : Declaration → Prop where
  | data : DeclaresType n constructors (.data n constructors)
  | group {d : Declaration} {members : List Declaration} : d ∈ members →
      DeclaresType n constructors d → DeclaresType n constructors (.group members)

section
variable {P : (ns : Namespace) → String → Entry ns → Prop} {o : Origin}

mutual

/-- What holds of plain entries and of the types declared holds of all that is declared. -/
theorem forall_declare {x : Interface} (hx : x.Forall P) (hp : ∀ ns n, P ns n (.plain o)) :
    (d : Declaration) → (∀ n cs, d.DeclaresType n cs → P .type n ⟨cs, o⟩) →
      (d.declare o x).Forall P
  | .data name cs, hd => by
    simp only [declare]
    exact hx.insert (hd name cs .data)
  | .typeSynonym _, _ | .foreignType _, _ | .value _, _ | .foreignValue _, _ | .valueFixity _, _
  | .typeFixity _, _ => by
    simp only [declare]
    exact hx.insert (hp _ _)
  | .typeClass name members, _ => by
    simp only [declare]
    exact List.foldlRecOn (motive := fun x : Interface => x.Forall P) members _
      (hx.insert (hp _ _)) fun y hy member _ => hy.insert (hp _ _)
  | .typeInstance _, _ | .kindSignature _, _ => by
    simpa only [declare] using hx
  | .group members, hd => by
    simp only [declare]
    exact forall_declareAll hx hp members fun d hm n cs h => hd n cs (.group hm h)

theorem forall_declareAll {x : Interface} (hx : x.Forall P) (hp : ∀ ns n, P ns n (.plain o)) :
    (ds : List Declaration) → (∀ d ∈ ds, ∀ n cs, d.DeclaresType n cs → P .type n ⟨cs, o⟩) →
      (declareAll o x ds).Forall P
  | [], _ => by simpa only [declareAll] using hx
  | d :: ds, hd => by
    simp only [declareAll]
    exact forall_declareAll (forall_declare hx hp d (hd d List.mem_cons_self)) hp ds
      fun e he => hd e (List.mem_cons_of_mem d he)

end

end

end Declaration

namespace Interface

/-- Every candidate is declared by the module that it is a candidate of. -/
theorem forall_candidate (m : ModuleName) (ds : List Declaration) :
    (candidate m ds).Forall fun _ _ e => e.origin = .declared m :=
  Declaration.forall_declareAll (P := fun _ _ e => e.origin = .declared m) forall_empty
    (fun _ _ => rfl) ds fun _ _ _ _ _ => rfl

/-- The constructors of a candidate are declared with a type of its name. -/
theorem forall_candidate_constructors (m : ModuleName) (ds : List Declaration) :
    (candidate m ds).Forall fun _ n e =>
      ∀ c ∈ e.constructors, ∃ d ∈ ds, ∃ cs, d.DeclaresType n cs ∧ c ∈ cs := by
  refine Declaration.forall_declareAll forall_empty (fun ns n c hc => ?_) ds
    fun d hd n cs h c hc => ⟨d, hd, cs, h, hc⟩
  cases ns <;> cases hc

/-- A requested type keeps the constructors asked for, which it must have, or all. -/
theorem exists_of_narrowType {m : ModuleName} {candidate : Interface} {n : String} {q : TypeRequest}
    {e : Entry .type} (h : narrowType m candidate n q = .ok e) :
    ∃ f, candidate.get? .type n = some f ∧ e.origin = f.origin ∧
      e.constructors ⊆ f.constructors ∧ e.constructors = q.constructors.getD f.constructors := by
  unfold narrowType at h
  split at h
  next => cases h
  next f hf =>
    refine ⟨f, hf, ?_⟩
    split at h
    next hq =>
      cases h
      exact ⟨rfl, fun _ hc => hc, by rw [hq, Option.getD_none]⟩
    next requested hq =>
      split at h
      next => cases h
      next hr =>
        cases h
        refine ⟨rfl, fun c hc => ?_, by rw [hq, Option.getD_some]; rfl⟩
        simpa using List.find?_eq_none.1 hr c hc

theorem narrowType_eq_ok {m : ModuleName} {candidate : Interface} {n : String} {q : TypeRequest}
    {e : Entry .type} (h : narrowType m candidate n q = .ok e) :
    candidate.KeptFrom .type n e := by
  obtain ⟨f, hf, ho, hc, -⟩ := exists_of_narrowType h
  exact ⟨f, hf, ho, hc⟩

theorem narrowPlain_eq_ok {m : ModuleName} {candidate : Interface} {span : Span} {ns : Namespace}
    {n : String} {e : Entry ns} (h : narrowPlain m candidate span ns n = .ok e) :
    candidate.get? ns n = some e ∧ e.origin.definedIn = m := by
  unfold narrowPlain at h
  split at h
  next f hf =>
    split at h
    next hm =>
      cases h
      exact ⟨hf, hm⟩
    next => cases h
  next => cases h

/-- Narrowing keeps candidates as they are, but for the constructors of types. -/
theorem forall_narrow {m : ModuleName} {candidate x : Interface} {refs : List ExportRef}
    (h : candidate.narrow m refs = .ok x) : x.Forall candidate.KeptFrom := by
  obtain ⟨types, ht, h⟩ := except_bind_eq_ok.1 h
  refine foldlM_invariant (P := fun x => x.Forall candidate.KeptFrom) (fun y z r _ hy hz => ?_) ?_ h
  · split at hz
    next => exact except_pure_eq_ok.1 hz ▸ hy
    next ns n _ =>
      obtain ⟨e, he, hz⟩ := except_bind_eq_ok.1 hz
      rw [← except_pure_eq_ok.1 hz]
      exact hy.insert ⟨e, (narrowPlain_eq_ok he).1, rfl, fun _ hc => hc⟩
  · refine foldlM_invariant (P := fun x => x.Forall candidate.KeptFrom) (fun y z q _ hy hz => ?_)
      forall_empty ht
    obtain ⟨e, he, hz⟩ := except_bind_eq_ok.1 hz
    rw [← except_pure_eq_ok.1 hz]
    exact hy.insert (narrowType_eq_ok he)

end Interface

end ModuleExports
