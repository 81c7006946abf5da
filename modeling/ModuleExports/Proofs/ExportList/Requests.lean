import Mathlib.Data.List.Induction
import Mathlib.Data.List.ReduceOption
import ModuleExports.ExportList.Narrowing

/-!
What the refs of an export list ask for. Main statement: the refs to one type are merged into one
request, which has the span of the first of them and every constructor that any of them lists, each
where it comes first, unless one of them asks for all.
-/
namespace ModuleExports
open Std

section EraseDups
variable {α : Type} [BEq α] [LawfulBEq α]

theorem nodup_eraseDups (xs : List α) : xs.eraseDups.Nodup := by
  induction h : xs.length using Nat.strongRecOn generalizing xs with
  | _ n ih =>
    cases xs with
    | nil => simp
    | cons x xs =>
      have hlt : (xs.filter fun y => !y == x).length < n :=
        Nat.lt_of_le_of_lt (List.length_filter_le _ _) (by simp [← h])
      rw [List.eraseDups_cons, List.nodup_cons]
      exact ⟨by simp, ih _ hlt _ rfl⟩

theorem eraseDups_eq_self {xs : List α} (h : xs.Nodup) : xs.eraseDups = xs := by
  induction xs with
  | nil => simp
  | cons x xs ih =>
    obtain ⟨hx, hxs⟩ := List.nodup_cons.1 h
    have hfilter : xs.filter (fun y => !y == x) = xs := by
      refine List.filter_eq_self.2 fun y hy => ?_
      have hne : y ≠ x := fun he => hx (he ▸ hy)
      simpa using hne
    rw [List.eraseDups_cons, hfilter, ih hxs]

/-- A list can be freed of repetitions before more is added to it. -/
theorem eraseDups_eraseDups_append (xs ys : List α) :
    (xs.eraseDups ++ ys).eraseDups = (xs ++ ys).eraseDups := by
  have hremove : ys.removeAll xs.eraseDups = ys.removeAll xs := by
    refine List.filter_congr fun y _ => ?_
    have hmem : xs.eraseDups.elem y = xs.elem y := by
      rw [Bool.eq_iff_iff]
      simp
    rw [hmem]
  rw [List.eraseDups_append, List.eraseDups_append, eraseDups_eq_self (nodup_eraseDups xs), hremove]

end EraseDups

namespace ExportItem
variable {i : ExportItem} {ns : Namespace} {n : String} {cs : Option (List String)}

theorem type?_eq_some_iff : i.type? = some (n, cs) ↔ i = .type n cs := by
  cases i <;> simp [type?]

theorem module?_eq_some_iff {m : ModuleName} : i.module? = some m ↔ i = .module m := by
  cases i <;> simp [module?]

theorem key_eq_type_iff : i.key = ⟨Namespace.type, n⟩ ↔ ∃ cs, i = .type n cs := by
  cases i <;> simp [key, kind, name]

theorem plain?_eq_some_iff : i.plain? = some (ns, n) ↔ ns ≠ .type ∧ i.key = ⟨ns, n⟩ := by
  cases i <;> cases ns <;> simp [plain?, key, kind, name]

theorem ne_type_of_plain? (h : i.plain? = some (ns, n)) : Namespace.type ≠ ns :=
  (plain?_eq_some_iff.1 h).1.symm

end ExportItem

namespace ExportRef
variable {refs refs' : List ExportRef} {ns : Namespace} {n c : String}

/-- Some ref lists the name; for a type this may be with any constructors. -/
def ListsName (refs : List ExportRef) (ns : Namespace) (n : String) : Prop :=
  ∃ r ∈ refs, r.item.key = ⟨ns, n⟩

/-- Some ref lists the type with all its constructors. -/
def ListsAll (refs : List ExportRef) (n : String) : Prop := ∃ r ∈ refs, r.item = .type n none

/-- Some ref spells out the constructor `c` with the type. -/
def ListsConstructor (refs : List ExportRef) (n c : String) : Prop :=
  ∃ r ∈ refs, r.item.key = ⟨Namespace.type, n⟩ ∧ c ∈ r.item.listed

instance : Decidable (ListsName refs ns n) :=
  inferInstanceAs (Decidable (∃ r ∈ refs, r.item.key = ⟨ns, n⟩))

instance : Decidable (ListsAll refs n) :=
  inferInstanceAs (Decidable (∃ r ∈ refs, r.item = .type n none))

instance : Decidable (ListsConstructor refs n c) :=
  inferInstanceAs (Decidable (∃ r ∈ refs, r.item.key = ⟨Namespace.type, n⟩ ∧ c ∈ r.item.listed))

theorem listsConstructor_iff :
    ListsConstructor refs n c ↔ ∃ r ∈ refs, ∃ cs, r.item = .type n (some cs) ∧ c ∈ cs := by
  refine exists_congr fun r => and_congr_right fun _ => ?_
  cases r.item with
  | type name cs => cases cs <;> simp [ExportItem.key, ExportItem.kind, ExportItem.name,
      ExportItem.listed]
  | _ => simp [ExportItem.listed]

theorem listsName_perm (hp : refs.Perm refs') : ListsName refs ns n ↔ ListsName refs' ns n :=
  exists_congr fun _ => and_congr_left' hp.mem_iff

theorem listsAll_perm (hp : refs.Perm refs') : ListsAll refs n ↔ ListsAll refs' n :=
  exists_congr fun _ => and_congr_left' hp.mem_iff

theorem listsConstructor_perm (hp : refs.Perm refs') :
    ListsConstructor refs n c ↔ ListsConstructor refs' n c :=
  exists_congr fun _ => and_congr_left' hp.mem_iff

/-- The first ref to the type. -/
def first? (refs : List ExportRef) (n : String) : Option ExportRef :=
  refs.find? (·.item.key == ⟨Namespace.type, n⟩)

theorem mem_of_first? {r : ExportRef} (h : first? refs n = some r) :
    r ∈ refs ∧ r.item.key = ⟨Namespace.type, n⟩ :=
  ⟨List.mem_of_find?_eq_some h, by simpa using List.find?_some h⟩

/-- Where only one ref is to the type, it spells out all that is spelled out with the type. -/
theorem mem_listed_of_countP {r : ExportRef} (h : first? refs n = some r)
    (hc : ListsConstructor refs n c)
    (hone : refs.countP (·.item.key == ⟨Namespace.type, n⟩) = 1) : c ∈ r.item.listed := by
  obtain ⟨hr, hkey⟩ := mem_of_first? h
  obtain ⟨t, ht, hkey', hc⟩ := hc
  obtain ⟨q, hq⟩ := List.length_eq_one_iff.1 (List.countP_eq_length_filter ▸ hone)
  have honly (p : ExportRef) (hp : p ∈ refs) (hkey : p.item.key = ⟨Namespace.type, n⟩) : p = q :=
    List.mem_singleton.1 (hq ▸ List.mem_filter.2 ⟨hp, by simp [hkey]⟩)
  rw [honly r hr hkey, ← honly t ht hkey']
  exact hc

/-- What the refs to the type `n` list with it, in list order. -/
def listings (refs : List ExportRef) (n : String) : List (Option (List String)) :=
  (refs.filterMap (·.item.type?)).filterMap fun t => if t.1 = n then some t.2 else none

/-- All that is listed, each constructor where it comes first, or none where all are asked for. -/
def joined (listings : List (Option (List String))) : Option (List String) :=
  if none ∈ listings then none else some listings.reduceOption.flatten.eraseDups

/-- The constructors that a list names with the type `n`, unless it leaves it open which. -/
def listed? (refs : List ExportRef) (n : String) : Option (List String) :=
  if listings refs n = [] then none else joined (listings refs n)

theorem joined_concat (l : List (Option (List String))) (cs : Option (List String)) :
    joined (l ++ [cs]) = do return ((← joined l) ++ (← cs)).eraseDups := by
  cases cs with
  | none => cases h : joined l <;> simp [joined]
  | some cs =>
    by_cases h : none ∈ l
    · simp [joined, h]
    · simp [joined, h, List.reduceOption_append, eraseDups_eraseDups_append]

theorem joined_eq_none_iff {l : List (Option (List String))} : joined l = none ↔ none ∈ l := by
  unfold joined
  split <;> simp [*]

theorem mem_of_joined {l : List (Option (List String))} {cs : List String}
    (h : joined l = some cs) : c ∈ cs ↔ ∃ ds, some ds ∈ l ∧ c ∈ ds := by
  unfold joined at h
  split at h
  · cases h
  · obtain rfl := Option.some.inj h
    simp [List.reduceOption_mem_iff]

theorem mem_listings_iff {cs : Option (List String)} :
    cs ∈ listings refs n ↔ ∃ r ∈ refs, r.item = .type n cs := by
  simp [listings, ExportItem.type?_eq_some_iff]

theorem listsName_type_iff : ListsName refs .type n ↔ listings refs n ≠ [] := by
  rw [ne_eq, List.eq_nil_iff_forall_not_mem, not_forall_not]
  simp only [ListsName, ExportItem.key_eq_type_iff, mem_listings_iff]
  constructor
  · intro ⟨r, hr, cs, hi⟩
    exact ⟨cs, r, hr, hi⟩
  · intro ⟨cs, r, hr, hi⟩
    exact ⟨r, hr, cs, hi⟩

theorem nodup_of_joined {l : List (Option (List String))} {cs : List String}
    (h : joined l = some cs) : cs.Nodup := by
  unfold joined at h
  split at h
  · cases h
  · exact Option.some.inj h ▸ nodup_eraseDups _

theorem nodup_of_listed? {ls : List String} (h : listed? refs n = some ls) : ls.Nodup := by
  unfold listed? at h
  split at h
  · cases h
  · exact nodup_of_joined h

theorem listings_concat {r : ExportRef} {cs : Option (List String)} (h : r.item = .type n cs) :
    listings (refs ++ [r]) n = listings refs n ++ [cs] := by
  simp [listings, h, ExportItem.type?]

theorem listings_concat_of_ne {r : ExportRef} (h : r.item.key ≠ ⟨Namespace.type, n⟩) :
    listings (refs ++ [r]) n = listings refs n := by
  have hnot (cs : Option (List String)) : r.item ≠ .type n cs := fun hi =>
    h (ExportItem.key_eq_type_iff.2 ⟨cs, hi⟩)
  cases hr : r.item.type? with
  | none => simp [listings, hr]
  | some t =>
    have hn : t.1 ≠ n := fun hn => hnot t.2 (ExportItem.type?_eq_some_iff.1 (hn ▸ hr))
    simp [listings, hr, hn]

end ExportRef

namespace TypeRequest
open ExportRef
variable {refs : List ExportRef} {r : ExportRef} {n : String} {q : TypeRequest}
  {requests : Requests}

/-- The request stands for all refs to the type `n`. -/
structure Merges (q : TypeRequest) (refs : List ExportRef) (n : String) : Prop where
  span : ∃ r, first? refs n = some r ∧ q.span = r.span
  all : q.constructors = none ↔ ListsAll refs n
  nodup : ∀ cs, q.constructors = some cs → cs.Nodup
  mem : ∀ cs, q.constructors = some cs → ∀ c, c ∈ cs ↔ ListsConstructor refs n c

theorem ofRefs_concat (refs : List ExportRef) (r : ExportRef) :
    ofRefs (refs ++ [r]) = addRef (ofRefs refs) r := by
  simp [ofRefs]

theorem getElem?_addRef {cs : Option (List String)} (h : r.item = .type n cs) :
    (addRef requests r)[n]? = some ((requests[n]?.getD ⟨r.span, some []⟩).merge cs) := by
  simp [addRef, h, ExportItem.type?]

theorem getElem?_addRef_of_ne (h : r.item.key ≠ ⟨Namespace.type, n⟩) :
    (addRef requests r)[n]? = requests[n]? := by
  unfold addRef
  split
  next => rfl
  next name cs hr =>
    have hn : name ≠ n := by
      intro hn
      subst hn
      exact h (ExportItem.key_eq_type_iff.2 ⟨cs, ExportItem.type?_eq_some_iff.1 hr⟩)
    rw [ExtTreeMap.getElem?_insert, if_neg]
    simpa using hn

/-- There is a request for each type listed, with all that is listed with it. -/
theorem getElem?_ofRefs : ((ofRefs refs)[n]?.isSome ↔ listings refs n ≠ []) ∧
    ∀ span, ((ofRefs refs)[n]?.getD ⟨span, some []⟩).constructors = joined (listings refs n) := by
  -- From the end, since each ref is merged into what the refs before it come to.
  induction refs using List.reverseRecOn with
  | nil => simp [ofRefs, listings, joined]
  | append_singleton refs r ih =>
    rw [ofRefs_concat]
    by_cases hkey : r.item.key = ⟨Namespace.type, n⟩
    · obtain ⟨cs, hi⟩ := ExportItem.key_eq_type_iff.1 hkey
      rw [getElem?_addRef hi, listings_concat hi]
      refine ⟨by simp, fun span => ?_⟩
      rw [Option.getD_some, merge, ih.2, joined_concat]
    · rw [getElem?_addRef_of_ne hkey, listings_concat_of_ne hkey]
      exact ih

/-- The request for a type has the span of the first ref to it. -/
theorem span_ofRefs : (ofRefs refs)[n]?.map span = (first? refs n).map ExportRef.span := by
  induction refs using List.reverseRecOn with
  | nil => simp [ofRefs, first?]
  | append_singleton refs r ih =>
    have hfirst : first? (refs ++ [r]) n = (first? refs n).or (first? [r] n) :=
      List.find?_append
    rw [ofRefs_concat, hfirst, Option.map_or, ← ih]
    by_cases hkey : r.item.key = ⟨Namespace.type, n⟩
    · obtain ⟨cs, hi⟩ := ExportItem.key_eq_type_iff.1 hkey
      rw [getElem?_addRef hi]
      cases hq : (ofRefs refs)[n]? <;> simp [first?, hkey, merge]
    · rw [getElem?_addRef_of_ne hkey]
      simp [first?, hkey]

theorem exists_ofRefs_iff : (∃ q, (ofRefs refs)[n]? = some q) ↔ ListsName refs .type n := by
  rw [listsName_type_iff, ← getElem?_ofRefs.1, Option.isSome_iff_exists]

theorem merges_of_ofRefs (h : (ofRefs refs)[n]? = some q) : q.Merges refs n := by
  have hjoined : q.constructors = joined (listings refs n) := by
    simpa [h] using (@getElem?_ofRefs refs n).2 .null
  refine ⟨?_, ?_, ?_, ?_⟩
  · have hspan := @span_ofRefs refs n
    rw [h, Option.map_some] at hspan
    obtain ⟨r, hr, hs⟩ := Option.map_eq_some_iff.1 hspan.symm
    exact ⟨r, hr, hs.symm⟩
  · rw [hjoined, joined_eq_none_iff, mem_listings_iff]
    rfl
  · intro cs hcs
    exact nodup_of_joined (hjoined.symm.trans hcs)
  · intro cs hcs c
    rw [hjoined] at hcs
    rw [mem_of_joined hcs, listsConstructor_iff]
    simp only [mem_listings_iff]
    constructor
    · intro ⟨ds, ⟨r, hr, hi⟩, hc⟩
      exact ⟨r, hr, ds, hi, hc⟩
    · intro ⟨r, hr, ds, hi, hc⟩
      exact ⟨ds, ⟨r, hr, hi⟩, hc⟩

end TypeRequest

end ModuleExports
