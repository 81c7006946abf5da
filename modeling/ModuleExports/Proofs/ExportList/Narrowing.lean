import Mathlib
import ModuleExports.Proofs.ExportList.Requests
import ModuleExports.Proofs.Interface.Entries

/-!
What is left of a candidate table that is narrowed to an export list, and which lists are refused.
Main statements: a narrowed table has just the names listed, each as in the candidate table but for
the constructors of a type, which are those listed with it unless all are; and a list is refused for
an unknown constructor exactly when it names one with a type that it does not list as a whole.
-/
namespace ModuleExports
open Std ExportRef

namespace Interface
variable {m : ModuleName} {candidate x y z : Interface} {refs refs' : List ExportRef}
  {ns : Namespace} {n c : String} {q : TypeRequest} {requests : List (String × TypeRequest)}

theorem hasConstructor_iff : x.hasConstructor n c ↔
    ∃ f, x.get? .type n = some f ∧ c ∈ f.constructors := by
  rw [hasConstructor, constructors?]
  cases x.get? .type n <;> simp

/-- An export list of `m` can have the name: it is that of a candidate, which `m` itself declares
unless it is a type. -/
def Listable (candidate : Interface) (m : ModuleName) (ns : Namespace) (n : String) : Prop :=
  ∃ f, candidate.get? ns n = some f ∧ (ns ≠ .type → f.origin.definedIn = m)

/-- All that the refs list can be listed. -/
structure Admits (candidate : Interface) (m : ModuleName) (refs : List ExportRef) : Prop where
  listable : ∀ ns n, ListsName refs ns n → candidate.Listable m ns n
  constructors : ∀ n c, ListsConstructor refs n c → ¬ ListsAll refs n → candidate.hasConstructor n c

/-- What can be wrong with refs that are not admitted. An unknown constructor is reported at the
first ref to its type. -/
inductive Fault (candidate : Interface) (m : ModuleName) (refs : List ExportRef) :
    Failure → Prop where
  | unlisted {r : ExportRef} {ns : Namespace} {n : String} : r ∈ refs → r.item.key = ⟨ns, n⟩ →
      ¬ candidate.Listable m ns n → Fault candidate m refs (.unknownExport m r.span ns n)
  | unknownConstructor {r : ExportRef} {n c : String} : first? refs n = some r →
      ListsConstructor refs n c → ¬ ListsAll refs n → ¬ candidate.hasConstructor n c →
      Fault candidate m refs (.unknownConstructor m r.span n c)

/-- The entry `e` is what is left of the candidate `f` of a listed name. -/
structure Narrowed (refs : List ExportRef) (n : String) (f e : Entry ns) : Prop where
  origin : e.origin = f.origin
  /-- All that is not a type stays as it is, and so does a type that is listed as a whole. -/
  whole : (ns = .type → ListsAll refs n) → e = f
  part : ns = .type → ¬ ListsAll refs n → e.constructors.Nodup ∧
    (∀ c, c ∈ e.constructors ↔ ListsConstructor refs n c) ∧ e.constructors ⊆ f.constructors

/-- Adds the requested types to a table. -/
def narrowTypes (candidate : Interface) (m : ModuleName) (requests : List (String × TypeRequest))
    (x : Interface) : Except Failure Interface :=
  requests.foldlM (fun x (name, q) => do
    return x.insert .type name (← narrowType m candidate name q)) x

/-- Adds what a ref lists to a table, if it is neither a type nor a module. -/
def narrowRef (candidate : Interface) (m : ModuleName) (x : Interface) (r : ExportRef) :
    Except Failure Interface := do
  match r.item.plain? with
  | none => return x
  | some (ns, name) => return x.insert ns name (← narrowPlain m candidate r.span ns name)

theorem narrow_eq : candidate.narrow m refs =
    candidate.narrowTypes m (TypeRequest.ofRefs refs).toList ∅ >>=
      refs.foldlM (candidate.narrowRef m) :=
  rfl

section Faults

theorem fault_of_narrowType (hq : q.Merges refs n) :
    FailsOnly (candidate.Fault m refs) (narrowType m candidate n q) := by
  obtain ⟨r, hr, hspan⟩ := hq.span
  obtain ⟨hmem, hkey⟩ := mem_of_first? hr
  unfold narrowType
  rw [hspan]
  split
  next hf =>
    refine .error (.unlisted hmem hkey ?_)
    simp [Listable, hf]
  next f hf =>
    split
    next => exact .ok _
    next requested hrequested =>
      split
      next unknown hu =>
        have hlisted := (hq.mem _ hrequested _).1 (List.mem_of_find?_eq_some hu)
        have hall : ¬ ListsAll refs n := fun h => by
          rw [hq.all.2 h] at hrequested
          cases hrequested
        refine .error (.unknownConstructor hr hlisted hall ?_)
        simpa [hasConstructor_iff, hf] using List.find?_some hu
      next => exact .ok _

theorem fault_of_narrowPlain {r : ExportRef} (hr : r ∈ refs) (hp : r.item.plain? = some (ns, n)) :
    FailsOnly (candidate.Fault m refs) (narrowPlain m candidate r.span ns n) := by
  obtain ⟨hns, hkey⟩ := ExportItem.plain?_eq_some_iff.1 hp
  unfold narrowPlain
  split
  next f hf =>
    split
    next => exact .ok _
    next hm =>
      refine .error (.unlisted hr hkey ?_)
      simp [Listable, hf, hns, hm]
  next hf =>
    refine .error (.unlisted hr hkey ?_)
    simp [Listable, hf]

/-- Each list that is refused has a fault, which is the one reported. -/
theorem fault_of_narrow : FailsOnly (candidate.Fault m refs) (candidate.narrow m refs) := by
  rw [narrow_eq]
  refine .bind (.foldlM fun x request hrequest => ?_) fun types _ => .foldlM fun x r hr => ?_
  · have hq := ExtTreeMap.mem_toList_iff_getElem?_eq_some.1 hrequest
    exact .bind (fault_of_narrowType (TypeRequest.merges_of_ofRefs hq)) fun _ _ => .ok _
  · unfold narrowRef
    split
    next => exact .ok _
    next ns name hp => exact .bind (fault_of_narrowPlain hr hp) fun _ _ => .ok _

theorem Fault.module?_eq {e : Failure} (h : candidate.Fault m refs e) : e.module? = some m := by
  cases h <;> rfl

theorem Admits.not_fault (h : candidate.Admits m refs) {e : Failure} :
    ¬ candidate.Fault m refs e := by
  intro he
  cases he with
  | @unlisted r ns n hr hkey hn => exact hn (h.listable ns n ⟨r, hr, hkey⟩)
  | unknownConstructor hr hlisted hall hc => exact hc (h.constructors _ _ hlisted hall)

end Faults

section Entries

theorem narrowed_of_narrowType (hq : q.Merges refs n) {e : Entry .type}
    (h : narrowType m candidate n q = .ok e) :
    ∃ f, candidate.get? .type n = some f ∧ Narrowed refs n f e := by
  obtain ⟨f, hf, horigin, hsub, hc⟩ := exists_of_narrowType h
  refine ⟨f, hf, horigin, fun hall => ?_, fun _ hall => ?_⟩
  · rw [hq.all.2 (hall rfl), Option.getD_none] at hc
    exact Entry.ext_constructors horigin hc
  · obtain ⟨cs, hcs⟩ := Option.ne_none_iff_exists'.1 fun h => hall (hq.all.1 h)
    rw [hcs, Option.getD_some] at hc
    exact ⟨hc ▸ hq.nodup cs hcs, hc ▸ hq.mem cs hcs, hsub⟩

/-- Each request makes an entry, and no entry is made without one. -/
theorem get?_narrowTypes (h : candidate.narrowTypes m requests y = .ok z) :
    ((z.get? .type n).isSome ↔ (y.get? .type n).isSome ∨ ∃ q, (n, q) ∈ requests) ∧
      ∀ e, z.get? .type n = some e → y.get? .type n = some e ∨
        ∃ q, (n, q) ∈ requests ∧ narrowType m candidate n q = .ok e := by
  induction requests generalizing y with
  | nil =>
    obtain rfl := except_pure_eq_ok.1 h
    exact ⟨by simp, fun e he => .inl he⟩
  | cons r requests ih =>
    obtain ⟨name, p⟩ := r
    obtain ⟨u, hu, h⟩ := except_bind_eq_ok.1 h
    obtain ⟨d, hd, hu⟩ := except_bind_eq_ok.1 hu
    obtain rfl := except_pure_eq_ok.1 hu
    obtain ⟨hsome, hentry⟩ := ih h
    rw [get?_insert] at hsome hentry
    by_cases hn : name = n
    · subst hn
      refine ⟨by simp [hsome], fun e he => .inr ?_⟩
      rcases hentry e he with he | ⟨q, hq, he⟩
      · obtain rfl : d = e := by simpa using he
        exact ⟨p, List.mem_cons_self, hd⟩
      · exact ⟨q, List.mem_cons_of_mem _ hq, he⟩
    · simp only [hn, ↓reduceIte] at hsome hentry
      refine ⟨by simp [hsome, Ne.symm hn], fun e he => ?_⟩
      rcases hentry e he with he | ⟨q, hq, he⟩
      · exact .inl he
      · exact .inr ⟨q, List.mem_cons_of_mem _ hq, he⟩

theorem get?_narrowTypes_of_ne (hns : ns ≠ .type) (h : candidate.narrowTypes m requests y = .ok z) :
    z.get? ns n = y.get? ns n := by
  refine foldlM_invariant (P := fun z => z.get? ns n = y.get? ns n) (fun u v r _ hu hv => ?_) rfl h
  obtain ⟨e, -, hv⟩ := except_bind_eq_ok.1 hv
  rw [← except_pure_eq_ok.1 hv, get?_insert_of_ne _ _ _ _ hns, hu]

theorem isSome_narrowRef {r : ExportRef} (h : candidate.narrowRef m y r = .ok z) :
    (z.get? ns n).isSome ↔ (y.get? ns n).isSome ∨ r.item.plain? = some (ns, n) := by
  unfold narrowRef at h
  split at h
  next hp =>
    obtain rfl := except_pure_eq_ok.1 h
    simp [hp]
  next ms name hp =>
    obtain ⟨e, -, h⟩ := except_bind_eq_ok.1 h
    obtain rfl := except_pure_eq_ok.1 h
    by_cases hms : ms = ns
    · subst hms
      by_cases hn : name = n <;> simp [get?_insert, hp, hn]
    · simp [get?_insert_of_ne _ _ _ _ (Ne.symm hms), hp, hms]

/-- Beyond the types, each ref makes an entry, and no entry is made without one. -/
theorem isSome_foldlM_narrowRef (h : refs.foldlM (candidate.narrowRef m) y = .ok z) :
    (z.get? ns n).isSome ↔ (y.get? ns n).isSome ∨ ns ≠ .type ∧ ListsName refs ns n := by
  induction refs generalizing y with
  | nil =>
    obtain rfl := except_pure_eq_ok.1 h
    simp [ListsName]
  | cons r refs ih =>
    obtain ⟨u, hu, h⟩ := except_bind_eq_ok.1 h
    rw [ih h]
    have hlists : ListsName (r :: refs) ns n ↔ r.item.key = ⟨ns, n⟩ ∨ ListsName refs ns n := by
      simp [ListsName]
    rw [isSome_narrowRef hu, hlists, ExportItem.plain?_eq_some_iff]
    tauto

theorem get?_narrowRef_type {r : ExportRef} (h : candidate.narrowRef m y r = .ok z) :
    z.get? .type n = y.get? .type n := by
  unfold narrowRef at h
  split at h
  next =>
    obtain rfl := except_pure_eq_ok.1 h
    rfl
  next ns name hp =>
    obtain ⟨e, -, h⟩ := except_bind_eq_ok.1 h
    obtain rfl := except_pure_eq_ok.1 h
    exact get?_insert_of_ne _ _ _ _ (ExportItem.ne_type_of_plain? hp)

theorem get?_foldlM_narrowRef_type (h : refs.foldlM (candidate.narrowRef m) y = .ok z) :
    z.get? .type n = y.get? .type n :=
  foldlM_invariant (P := fun z => z.get? .type n = y.get? .type n)
    (fun _ _ _ _ hu hv => (get?_narrowRef_type hv).trans hu) rfl h

/-- The types of a narrowed table are those requested. -/
theorem get?_narrow_type (h : candidate.narrow m refs = .ok x) :
    ((x.get? .type n).isSome ↔ (TypeRequest.ofRefs refs)[n]?.isSome) ∧
      ∀ e, x.get? .type n = some e → ∃ q, (TypeRequest.ofRefs refs)[n]? = some q ∧
        narrowType m candidate n q = .ok e := by
  rw [narrow_eq] at h
  obtain ⟨types, ht, h⟩ := except_bind_eq_ok.1 h
  obtain ⟨hsome, hentry⟩ := get?_narrowTypes (n := n) ht
  simp only [ExtTreeMap.mem_toList_iff_getElem?_eq_some, get?_empty, Option.isSome_none,
    Bool.false_eq_true, false_or, reduceCtorEq] at hsome hentry
  rw [get?_foldlM_narrowRef_type h]
  exact ⟨hsome.trans Option.isSome_iff_exists.symm, hentry⟩

/-- A narrowed table has just the names listed. -/
theorem contains_narrow (h : candidate.narrow m refs = .ok x) :
    x.contains ns n ↔ ListsName refs ns n := by
  by_cases hns : ns = .type
  · subst hns
    rw [contains, (get?_narrow_type h).1, Option.isSome_iff_exists, TypeRequest.exists_ofRefs_iff]
  · rw [narrow_eq] at h
    obtain ⟨types, ht, h⟩ := except_bind_eq_ok.1 h
    rw [contains, isSome_foldlM_narrowRef h, get?_narrowTypes_of_ne hns ht]
    simp [hns]

theorem narrowed_of_narrow (h : candidate.narrow m refs = .ok x) {e : Entry ns}
    (he : x.get? ns n = some e) : ∃ f, candidate.get? ns n = some f ∧ Narrowed refs n f e := by
  by_cases hns : ns = .type
  · subst hns
    obtain ⟨q, hq, hn⟩ := (get?_narrow_type h).2 e he
    exact narrowed_of_narrowType (TypeRequest.merges_of_ofRefs hq) hn
  · obtain ⟨f, hf, horigin, -⟩ := forall_narrow h ns n e he
    have hef : e = f := by
      apply Entry.ext_constructors horigin
      rw [Entry.constructors_eq_nil hns, Entry.constructors_eq_nil hns]
    exact ⟨f, hf, horigin, fun _ => hef, fun h => absurd h hns⟩

end Entries

section Law

theorem definedIn_of_narrow (h : candidate.narrow m refs = .ok x) (hns : ns ≠ .type)
    (hlists : ListsName refs ns n) {f : Entry ns} (hf : candidate.get? ns n = some f) :
    f.origin.definedIn = m := by
  rw [narrow_eq] at h
  obtain ⟨types, -, h⟩ := except_bind_eq_ok.1 h
  obtain ⟨r, hr, hkey⟩ := hlists
  obtain ⟨y, z, hz⟩ := exists_of_foldlM_eq_ok h r hr
  rw [narrowRef, ExportItem.plain?_eq_some_iff.2 ⟨hns, hkey⟩] at hz
  obtain ⟨e, he, -⟩ := except_bind_eq_ok.1 hz
  obtain ⟨he, hm⟩ := narrowPlain_eq_ok he
  obtain rfl := Option.some.inj (hf.symm.trans he)
  exact hm

/-- A constructor that is listed, of a type that is not listed as a whole, is one that it has. -/
theorem hasConstructor_of_narrowTypes
    (h : candidate.narrowTypes m (TypeRequest.ofRefs refs).toList y = .ok z)
    (hlisted : ListsConstructor refs n c) (hall : ¬ ListsAll refs n) :
    candidate.hasConstructor n c := by
  obtain ⟨r, hr, hkey, -⟩ := id hlisted
  obtain ⟨q, hq⟩ := TypeRequest.exists_ofRefs_iff.2 ⟨r, hr, hkey⟩
  obtain ⟨u, v, hv⟩ := exists_of_foldlM_eq_ok h (n, q)
    (ExtTreeMap.mem_toList_iff_getElem?_eq_some.2 hq)
  obtain ⟨e, he, -⟩ := except_bind_eq_ok.1 hv
  obtain ⟨f, hf, hn⟩ := narrowed_of_narrowType (TypeRequest.merges_of_ofRefs hq) he
  obtain ⟨-, hmem, hsub⟩ := hn.part rfl hall
  exact hasConstructor_iff.2 ⟨f, hf, hsub ((hmem c).2 hlisted)⟩

theorem admits_of_narrow (h : candidate.narrow m refs = .ok x) : candidate.Admits m refs := by
  refine ⟨fun ns n hlists => ?_, fun n c hlisted hall => ?_⟩
  · obtain ⟨e, he⟩ := Option.isSome_iff_exists.1 ((contains_narrow h).2 hlists)
    obtain ⟨f, hf, -⟩ := narrowed_of_narrow h he
    exact ⟨f, hf, fun hns => definedIn_of_narrow h hns hlists hf⟩
  · rw [narrow_eq] at h
    obtain ⟨types, htypes, -⟩ := except_bind_eq_ok.1 h
    exact hasConstructor_of_narrowTypes htypes hlisted hall

/-- The lists that are not refused are those whose names can be listed, with constructors that their
types have. -/
theorem exists_narrow_iff : (∃ x, candidate.narrow m refs = .ok x) ↔ candidate.Admits m refs := by
  constructor
  · intro ⟨x, h⟩
    exact admits_of_narrow h
  · intro h
    cases hx : candidate.narrow m refs with
    | ok x => exact ⟨x, rfl⟩
    | error e => exact absurd (fault_of_narrow e hx) h.not_fault

theorem Admits.perm (h : candidate.Admits m refs) (hp : refs.Perm refs') :
    candidate.Admits m refs' := by
  refine ⟨fun ns n hlists => ?_, fun n c hlisted hall => ?_⟩
  · exact h.listable ns n ((listsName_perm hp).2 hlists)
  · refine h.constructors n c ((listsConstructor_perm hp).2 hlisted) ?_
    rwa [listsAll_perm hp]

/-- The tables have the same names with the same origins, each with the same constructors in some
order. -/
def SameButOrder (x y : Interface) : Prop :=
  ∀ ns n, Option.Rel (fun e d : Entry ns => e.origin = d.origin ∧
    e.constructors.Perm d.constructors) (x.get? ns n) (y.get? ns n)

theorem Narrowed.perm (hp : refs.Perm refs') {f e d : Entry ns} (he : Narrowed refs n f e)
    (hd : Narrowed refs' n f d) : e.constructors.Perm d.constructors := by
  by_cases hall : ns = .type → ListsAll refs n
  · have hall' : ns = .type → ListsAll refs' n := fun hns => (listsAll_perm hp).1 (hall hns)
    rw [he.whole hall, hd.whole hall']
  · obtain ⟨hns, hall⟩ := Classical.not_imp.1 hall
    obtain ⟨hnodup, hmem, -⟩ := he.part hns hall
    obtain ⟨hnodup', hmem', -⟩ := hd.part hns fun h => hall ((listsAll_perm hp).2 h)
    refine (List.perm_ext_iff_of_nodup hnodup hnodup').2 fun c => ?_
    rw [hmem, hmem', listsConstructor_perm hp]

theorem sameButOrder_of_perm (hp : refs.Perm refs') (hx : candidate.narrow m refs = .ok x)
    (hy : candidate.narrow m refs' = .ok y) : x.SameButOrder y := by
  intro ns n
  have hsome : (x.get? ns n).isSome ↔ (y.get? ns n).isSome :=
    (contains_narrow hx).trans ((listsName_perm hp).trans (contains_narrow hy).symm)
  cases he : x.get? ns n with
  | none =>
    have hnone : y.get? ns n = none := by simpa [he] using hsome
    rw [hnone]
    exact .none
  | some e =>
    obtain ⟨d, hd⟩ : ∃ d, y.get? ns n = some d :=
      Option.isSome_iff_exists.1 (hsome.1 (by simp [he]))
    obtain ⟨f, hf, hn⟩ := narrowed_of_narrow hx he
    obtain ⟨g, hg, hn'⟩ := narrowed_of_narrow hy hd
    obtain rfl := Option.some.inj (hf.symm.trans hg)
    rw [hd]
    exact .some ⟨hn.origin.trans hn'.origin.symm, hn.perm hp hn'⟩

/-- Refs to modules have no part in narrowing. -/
theorem narrow_filter_module? :
    candidate.narrow m (refs.filter (·.item.module?.isNone)) = candidate.narrow m refs := by
  have hrequests : TypeRequest.ofRefs (refs.filter (·.item.module?.isNone)) =
      TypeRequest.ofRefs refs := by
    rw [TypeRequest.ofRefs, TypeRequest.ofRefs, List.foldl_filter]
    congr 1
    funext requests r
    unfold TypeRequest.addRef
    cases r.item <;> rfl
  rw [narrow_eq, narrow_eq, hrequests]
  congr 1
  funext types
  rw [List.foldlM_filter]
  congr 1
  funext x r
  unfold narrowRef
  cases r.item <;> rfl

theorem mem_names : n ∈ x.names ns ↔ x.contains ns n := by
  simp [names, contains, get?, ExtTreeMap.mem_keys]

/-- The law of narrowing a table to a list. -/
structure Narrowing (candidate : Interface) (m : ModuleName) (refs : List ExportRef) : Prop where
  accepts : (∀ ns n, ListsName refs ns n → candidate.Listable m ns n) →
    (∀ n c, ListsConstructor refs n c → candidate.hasConstructor n c) →
    ∃ x, candidate.narrow m refs = .ok x
  refuses : (∃ ns n, ListsName refs ns n ∧ ¬ candidate.Listable m ns n) →
    ∃ e, candidate.narrow m refs = .error e
  /-- A narrowed table has just the names listed. -/
  names : ∀ x, candidate.narrow m refs = .ok x → ∀ ns n, x.contains ns n ↔ ListsName refs ns n
  entries : ∀ x, candidate.narrow m refs = .ok x → ∀ ns n e, x.get? ns n = some e →
    ∃ f, candidate.get? ns n = some f ∧ Narrowed refs n f e
  subset : ∀ x, candidate.narrow m refs = .ok x → ∀ ns, x.names ns ⊆ candidate.names ns
  modules : candidate.narrow m (refs.filter (·.item.module?.isNone)) = candidate.narrow m refs
  /-- In another order the refs are accepted or refused alike, and leave the same. -/
  order : ∀ refs', refs.Perm refs' →
    ((∃ x, candidate.narrow m refs = .ok x) ↔ ∃ y, candidate.narrow m refs' = .ok y) ∧
      ∀ x y, candidate.narrow m refs = .ok x → candidate.narrow m refs' = .ok y → x.SameButOrder y

/-- Every table is narrowed by the law, whatever the list. -/
theorem narrowing (candidate : Interface) (m : ModuleName) (refs : List ExportRef) :
    candidate.Narrowing m refs where
  accepts hnames hconstructors :=
    exists_narrow_iff.2 ⟨hnames, fun n c hlisted _ => hconstructors n c hlisted⟩
  refuses := by
    intro ⟨ns, n, hlists, hn⟩
    cases hx : candidate.narrow m refs with
    | ok x => exact absurd ((admits_of_narrow hx).listable ns n hlists) hn
    | error e => exact ⟨e, rfl⟩
  names _ h _ _ := contains_narrow h
  entries _ h _ _ _ he := narrowed_of_narrow h he
  subset x h ns n hn := by
    obtain ⟨e, he⟩ := Option.isSome_iff_exists.1 (mem_names.1 hn)
    obtain ⟨f, hf, -⟩ := narrowed_of_narrow h he
    rw [mem_names, contains, hf]
    rfl
  modules := narrow_filter_module?
  order refs' hp := by
    refine ⟨?_, fun x y hx hy => sameButOrder_of_perm hp hx hy⟩
    rw [exists_narrow_iff, exists_narrow_iff]
    exact ⟨fun h => h.perm hp, fun h => h.perm hp.symm⟩

/-- The module `M` has a type of `H` with three constructors, a value of its own and one of `H`. -/
def sampleTable : Interface :=
  let imported : Origin := ⟨⟨"H"⟩, some ⟨"X"⟩⟩
  ((∅ : Interface).insert .type "T" ⟨["A", "B", "C"], imported⟩).insert .value "f"
    (.plain (.declared ⟨"M"⟩)) |>.insert .value "g" (.plain imported)

/-- The constructors of `T` are listed in two refs, one of them in both. -/
def sampleListing : List ExportRef :=
  [⟨.null, .type "T" (some ["C"])⟩, ⟨.null, .module ⟨"X"⟩⟩, ⟨.null, .value "f"⟩,
    ⟨.null, .type "T" (some ["A", "C"])⟩]

theorem narrowing_sampleTable : ∃ x e, sampleTable.narrow ⟨"M"⟩ sampleListing = .ok x ∧
    x.get? .type "T" = some e ∧ e.origin = ⟨⟨"H"⟩, some ⟨"X"⟩⟩ ∧ e.constructors.Nodup ∧
    (∀ c, c ∈ e.constructors ↔ ListsConstructor sampleListing "T" c) ∧
    ¬ x.contains .value "g" ∧
    (∃ y, sampleTable.narrow ⟨"M"⟩ sampleListing.reverse = .ok y ∧ x.SameButOrder y) ∧
    ∃ e, sampleTable.narrow ⟨"M"⟩ (⟨.null, .value "g"⟩ :: sampleListing) = .error e := by
  have hlaw := narrowing sampleTable ⟨"M"⟩ sampleListing
  obtain ⟨x, hx, -⟩ : ∃ x, sampleTable.narrow ⟨"M"⟩ sampleListing = .ok x ∧ x.totalSize = 2 :=
    except_map_eq_ok.1 (by cbv)
  have hlists : x.contains .type "T" := (hlaw.names x hx _ _).2 (by decide)
  obtain ⟨e, he⟩ := Option.isSome_iff_exists.1 hlists
  obtain ⟨f, hf, hn⟩ := hlaw.entries x hx _ _ e he
  have hf' : sampleTable.get? .type "T" = some ⟨["A", "B", "C"], ⟨⟨"H"⟩, some ⟨"X"⟩⟩⟩ := by decide
  obtain rfl := Option.some.inj (hf.symm.trans hf')
  obtain ⟨hnodup, hmem, -⟩ := hn.part rfl (by decide)
  have hg : ¬ x.contains .value "g" := fun hg => absurd ((hlaw.names x hx _ _).1 hg) (by decide)
  obtain ⟨haccepted, hsame⟩ := hlaw.order sampleListing.reverse (List.reverse_perm _).symm
  obtain ⟨y, hy⟩ := haccepted.1 ⟨x, hx⟩
  refine ⟨x, e, hx, he, hn.origin, hnodup, hmem, hg, ⟨y, hy, hsame x y hx hy⟩, ?_⟩
  apply (narrowing sampleTable ⟨"M"⟩ (⟨.null, .value "g"⟩ :: sampleListing)).refuses
  refine ⟨.value, "g", by decide, ?_⟩
  intro hlistable
  obtain ⟨f, hf, hm⟩ := hlistable
  have hf' : sampleTable.get? .value "g" = some (.plain ⟨⟨"H"⟩, some ⟨"X"⟩⟩) := by decide
  obtain rfl := Option.some.inj (hf.symm.trans hf')
  exact absurd (hm (by decide)) (by decide)

end Law

section Constructors

/-- Where each type listed is a candidate, its request fails at most for an unknown constructor. -/
theorem unknownConstructor_of_narrowTypes
    (htypes : ∀ r ∈ refs, ∀ t ∈ r.item.type?, candidate.contains .type t.1) :
    FailsOnly (fun e => ∃ span n c, e = .unknownConstructor m span n c)
      (candidate.narrowTypes m (TypeRequest.ofRefs refs).toList x) := by
  refine .foldlM fun y ⟨n, q⟩ hq => .bind ?_ fun _ _ => .ok _
  have hq := ExtTreeMap.mem_toList_iff_getElem?_eq_some.1 hq
  obtain ⟨r, hr, hkey⟩ := TypeRequest.exists_ofRefs_iff.1 ⟨q, hq⟩
  obtain ⟨cs, hi⟩ := ExportItem.key_eq_type_iff.1 hkey
  have hn := htypes r hr (n, cs) (ExportItem.type?_eq_some_iff.2 hi)
  unfold narrowType
  split
  next hf => simp [contains, hf] at hn
  next f hf =>
    split
    next => exact .ok _
    next =>
      split
      next unknown _ => exact .error ⟨q.span, n, unknown, rfl⟩
      next => exact .ok _

/-- Where each type listed is a candidate, a list is refused for an unknown constructor exactly when
it spells one out with a type that no ref lists as a whole, and such a one is reported. -/
theorem narrow_eq_unknownConstructor_iff
    (htypes : ∀ r ∈ refs, ∀ t ∈ r.item.type?, candidate.contains .type t.1) :
    ((∃ span n c, candidate.narrow m refs = .error (.unknownConstructor m span n c)) ↔
      ∃ n c, ListsConstructor refs n c ∧ ¬ candidate.hasConstructor n c ∧ ¬ ListsAll refs n) ∧
    ∀ span n c, candidate.narrow m refs = .error (.unknownConstructor m span n c) →
      ListsConstructor refs n c ∧ ¬ candidate.hasConstructor n c ∧ ¬ ListsAll refs n := by
  have hreported : ∀ span n c, candidate.narrow m refs = .error (.unknownConstructor m span n c) →
      ListsConstructor refs n c ∧ ¬ candidate.hasConstructor n c ∧ ¬ ListsAll refs n := by
    intro span n c h
    cases fault_of_narrow _ h with
    | unknownConstructor hr hlisted hall hc => exact ⟨hlisted, hc, hall⟩
  refine ⟨⟨?_, ?_⟩, hreported⟩
  · intro ⟨span, n, c, h⟩
    exact ⟨n, c, hreported span n c h⟩
  · intro ⟨n, c, hlisted, hc, hall⟩
    -- The types come first, so no other ref can be refused before the constructor is.
    cases htable : candidate.narrowTypes m (TypeRequest.ofRefs refs).toList ∅ with
    | ok types => exact absurd (hasConstructor_of_narrowTypes htable hlisted hall) hc
    | error e =>
      obtain ⟨span, t, b, rfl⟩ := unknownConstructor_of_narrowTypes htypes e htable
      refine ⟨span, t, b, ?_⟩
      rw [narrow_eq, htable]
      rfl

/-- The type `T` is listed without constructors and with one that it does not have, and so is an
operator that the module does not have. -/
def sampleUnknown : List ExportRef :=
  [⟨.null, .typeOperator "+"⟩, ⟨.null, .type "T" (some [])⟩, ⟨.null, .type "T" (some ["Bogus"])⟩]

theorem narrow_eq_unknownConstructor_iff_sampleUnknown :
    (∀ r ∈ sampleUnknown, ∀ t ∈ r.item.type?, sampleTable.contains .type t.1) ∧
    ∃ span n c, sampleTable.narrow ⟨"M"⟩ sampleUnknown =
      .error (.unknownConstructor ⟨"M"⟩ span n c) := by
  have htypes : ∀ r ∈ sampleUnknown, ∀ t ∈ r.item.type?, sampleTable.contains .type t.1 := by
    decide
  have hc : ¬ sampleTable.hasConstructor "T" "Bogus" := by decide
  exact ⟨htypes, (narrow_eq_unknownConstructor_iff htypes).1.2
    ⟨"T", "Bogus", by decide, hc, by decide⟩⟩

/-- The module `M` declares `T` with one constructor. -/
def sampleDeclared : Interface := .candidate ⟨"M"⟩ [.data "T" ["A"]]

/-- The type `T` is listed with a constructor that it does not have, and again as a whole. -/
def sampleMasked : List ExportRef :=
  [⟨⟨⟨1, 1⟩, ⟨1, 9⟩⟩, .type "T" (some ["Bogus"])⟩, ⟨.null, .type "T" none⟩]

theorem exists_narrow_sampleMasked :
    (∀ r ∈ sampleMasked, ∀ t ∈ r.item.type?, sampleDeclared.contains .type t.1) ∧
    ListsConstructor sampleMasked "T" "Bogus" ∧ ¬ sampleDeclared.hasConstructor "T" "Bogus" ∧
    ∃ x, sampleDeclared.narrow ⟨"M"⟩ sampleMasked = .ok x ∧ x.constructors? "T" = some ["A"] := by
  have hc : ¬ sampleDeclared.hasConstructor "T" "Bogus" := by decide
  exact ⟨by decide, by decide, hc, except_map_eq_ok.1 (by cbv)⟩

end Constructors

end Interface

end ModuleExports
