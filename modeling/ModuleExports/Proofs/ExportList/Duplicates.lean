import Mathlib
import ModuleExports.ExportList.Duplicates

/-!
What the warnings about duplicates in an export list report. Main statement: they are those for each
item that several refs list and for each constructor that one ref lists several times, in the order
of their spans.
-/
namespace ModuleExports
open Std

section StableSort
variable {α : Type} {le : α → α → Bool} {R : α → α → Prop} {xs : List α}

/-- A stable sort keeps the order among elements that it could as well exchange. -/
theorem pairwise_mergeSort_of_pairwise (htrans : ∀ a b c, le a b → le b c → le a c)
    (htotal : ∀ a b, le a b || le b a) (h : xs.Pairwise R) :
    (xs.mergeSort le).Pairwise fun a b => le a b ∧ (le b a → R a b) := by
  rw [List.pairwise_iff_forall_sublist]
  intro a b hab
  have hle : le a b :=
    List.pairwise_iff_forall_sublist.1 (List.pairwise_mergeSort htrans htotal xs) hab
  refine ⟨hle, fun hba => ?_⟩
  -- What is tied with `a` is sorted already, so it is found in the same order in both lists.
  let tied (c : α) : Bool := le a c && le c a
  have hsorted : (xs.filter tied).Pairwise fun c d => le c d := by
    refine List.pairwise_of_forall_mem_list fun c hc d hd => ?_
    have hca := (List.mem_filter.1 hc).2
    have had := (List.mem_filter.1 hd).2
    simp only [tied, Bool.and_eq_true] at hca had
    exact htrans c a d hca.2 had.1
  have hsub : (xs.filter tied).Sublist ((xs.mergeSort le).filter tied) := by
    have hsub := (List.sublist_mergeSort htrans htotal hsorted List.filter_sublist).filter tied
    rwa [List.filter_filter, funext fun c => Bool.and_self (tied c)] at hsub
  have heq : xs.filter tied = (xs.mergeSort le).filter tied :=
    hsub.eq_of_length ((List.mergeSort_perm xs le).filter tied).length_eq.symm
  have hpair : [a, b].filter tied = [a, b] := by
    have haa := htrans a b a hle hba
    simp [tied, hle, hba, haa]
  have hxs : [a, b].Sublist xs := by
    have hfilter := hab.filter tied
    rw [hpair, ← heq] at hfilter
    exact hfilter.trans List.filter_sublist
  exact List.pairwise_iff_forall_sublist.1 h hxs

end StableSort

namespace ExportRef
variable {m : ModuleName} {refs : List ExportRef} {r : ExportRef} {k : ItemKey} {c : String}
  {i : Nat} {w : Warning}

/-- What a list names more than once: an item, listed by several refs, or a constructor, listed more
than once by the ref at a position. -/
inductive Repetition where
  | item (k : ItemKey)
  | constructor (i : Nat) (c : String)

namespace Repetition

/-- Items come before constructors, items in the order of their kinds and names, and constructors in
the order of the refs and then of their names. -/
inductive Before : Repetition → Repetition → Prop where
  | items {k l : ItemKey} : compare k l = .lt → Before (.item k) (.item l)
  | constructors {k : ItemKey} {i : Nat} {c : String} : Before (.item k) (.constructor i c)
  | positions {i j : Nat} {c d : String} : i < j → Before (.constructor i c) (.constructor j d)
  | names {i : Nat} {c d : String} : compare c d = .lt →
      Before (.constructor i c) (.constructor i d)

theorem Before.irrefl {x : Repetition} : ¬ Before x x := by
  intro h
  cases h with
  | items h => simp at h
  | positions h => exact Nat.lt_irrefl _ h
  | names h => simp at h

end Repetition

/-- The refs with the given kind and name. -/
def having (refs : List ExportRef) (k : ItemKey) : List ExportRef := refs.filter (·.item.key == k)

/-- The list has the repetition `x`, and `w` is the warning about it: for an item at the second of
its refs, for a constructor at the ref that lists it. -/
inductive Warrants (m : ModuleName) (refs : List ExportRef) : Repetition → Warning → Prop where
  | item {k : ItemKey} {second : ExportRef} : (having refs k)[1]? = some second →
      Warrants m refs (.item k)
        (.duplicateRef m second.span k.kind k.name (having refs k).length)
  | constructor {i : Nat} {c n : String} {cs : List String} {span : Span} :
      refs[i]? = some ⟨span, .type n (some cs)⟩ → 2 ≤ cs.count c →
      Warrants m refs (.constructor i c) (.duplicateRef m span .dataConstructor c (cs.count c))

/-- The repeated items with their warnings, in the order of their kinds and names. -/
def foundItems (m : ModuleName) (refs : List ExportRef) : List (Repetition × Warning) :=
  (keys refs).filterMap fun k => (having refs k)[1]?.map fun second =>
    (.item k, .duplicateRef m second.span k.kind k.name (having refs k).length)

/-- The constructors that the ref at the position `i` repeats, with their warnings. -/
def foundConstructors (m : ModuleName) (i : Nat) (r : ExportRef) : List (Repetition × Warning) :=
  ((ExtTreeSet.ofList r.item.listed).toList.filter (1 < r.item.listed.count ·)).map fun c =>
    (.constructor i c, .duplicateRef m r.span .dataConstructor c (r.item.listed.count c))

/-- All repetitions with their warnings, in the order in which they are looked for. -/
def found (m : ModuleName) (refs : List ExportRef) : List (Repetition × Warning) :=
  foundItems m refs ++ refs.zipIdx.flatMap fun t => foundConstructors m t.2 t.1

theorem mem_keys : k ∈ keys refs ↔ ∃ r ∈ refs, r.item.key = k := by
  simp [keys, ExtTreeSet.mem_toList, ExtTreeSet.mem_ofList]

theorem pairwise_keys : (keys refs).Pairwise fun k l => compare k l = .lt :=
  ExtTreeSet.ordered_toList

theorem map_foundItems : (foundItems m refs).map Prod.snd = repeatedItems m refs := by
  rw [foundItems, repeatedItems, List.map_filterMap]
  refine List.filterMap_congr fun k _ => ?_
  rw [spansOf, ← having]
  rcases having refs k with _ | ⟨first, _ | ⟨second, rest⟩⟩
  · rfl
  · rfl
  · simp

theorem map_found : (found m refs).map Prod.snd =
    repeatedItems m refs ++ refs.flatMap (repeatedConstructors m) := by
  have hconstructors (t : ExportRef × Nat) :
      (foundConstructors m t.2 t.1).map Prod.snd = repeatedConstructors m t.1 := by
    simp [foundConstructors, repeatedConstructors]
  have hrefs : refs.flatMap (repeatedConstructors m) =
      refs.zipIdx.flatMap fun t => repeatedConstructors m t.1 := by
    rw [← List.flatMap_map Prod.fst, List.zipIdx_map_fst]
  rw [found, List.map_append, map_foundItems, List.map_flatMap, funext hconstructors, hrefs]

theorem mem_foundItems {x : Repetition} :
    (x, w) ∈ foundItems m refs ↔ Warrants m refs x w ∧ ∃ k, x = .item k := by
  simp only [foundItems, List.mem_filterMap, Option.map_eq_some_iff, Prod.mk.injEq]
  constructor
  · rintro ⟨k, -, second, hs, rfl, rfl⟩
    exact ⟨.item hs, k, rfl⟩
  · rintro ⟨h, k, rfl⟩
    cases h with
    | @item _ second hs =>
      have hmem := List.mem_filter.1 (List.mem_of_getElem? hs)
      exact ⟨k, mem_keys.2 ⟨second, hmem.1, by simpa using hmem.2⟩, second, hs, rfl, rfl⟩

theorem listed_of_count (h : 1 < r.item.listed.count c) :
    ∃ n cs, r.item = .type n (some cs) ∧ r.item.listed = cs := by
  cases hi : r.item with
  | type n cs =>
    cases cs with
    | none => simp [hi, ExportItem.listed] at h
    | some cs => exact ⟨n, cs, rfl, rfl⟩
  | _ => simp [hi, ExportItem.listed] at h

theorem mem_foundConstructors {x : Repetition} (hr : refs[i]? = some r) :
    (x, w) ∈ foundConstructors m i r ↔ Warrants m refs x w ∧ ∃ c, x = .constructor i c := by
  simp only [foundConstructors, List.mem_map, List.mem_filter, decide_eq_true_eq, Prod.mk.injEq]
  constructor
  · rintro ⟨c, ⟨-, hc⟩, rfl, rfl⟩
    obtain ⟨n, cs, hi, hcs⟩ := listed_of_count hc
    rw [hcs] at hc ⊢
    exact ⟨.constructor (hr.trans (by rw [← hi])) hc, c, rfl⟩
  · rintro ⟨h, c, rfl⟩
    cases h with
    | constructor h hc =>
      obtain rfl := Option.some.inj (hr.symm.trans h)
      have hmem := List.count_pos_iff.1 (Nat.zero_lt_of_lt hc)
      refine ⟨c, ⟨?_, hc⟩, rfl, rfl⟩
      simpa [ExportItem.listed, ExtTreeSet.mem_toList, ExtTreeSet.mem_ofList] using hmem

theorem mem_found {x : Repetition} : (x, w) ∈ found m refs ↔ Warrants m refs x w := by
  rw [found, List.mem_append, mem_foundItems, List.mem_flatMap]
  constructor
  · rintro (⟨h, -⟩ | ⟨⟨r, i⟩, ht, h⟩)
    · exact h
    · exact ((mem_foundConstructors (List.mem_zipIdx_iff_getElem?.1 ht)).1 h).1
  · intro h
    cases x with
    | item k => exact .inl ⟨h, k, rfl⟩
    | constructor i c =>
      obtain ⟨r, hr⟩ : ∃ r, refs[i]? = some r := by
        cases h with
        | constructor h _ => exact ⟨_, h⟩
      have hmem := (mem_foundConstructors hr).2 ⟨h, c, rfl⟩
      exact .inr ⟨(r, i), List.mem_zipIdx_iff_getElem?.2 hr, hmem⟩

theorem pairwise_foundConstructors :
    (foundConstructors m i r).Pairwise fun a b => a.1.Before b.1 := by
  rw [foundConstructors, List.pairwise_map]
  refine (ExtTreeSet.ordered_toList.filter _).imp fun hcd => ?_
  exact .names hcd

/-- The repetitions are looked for in the order of which comes before which. -/
theorem pairwise_found : (found m refs).Pairwise fun a b => a.1.Before b.1 := by
  rw [found, List.pairwise_append, foundItems, List.pairwise_filterMap, List.pairwise_flatMap]
  refine ⟨pairwise_keys.imp fun hkl => ?_, ⟨fun t _ => pairwise_foundConstructors, ?_⟩, ?_⟩
  · simp only [Option.map_eq_some_iff]
    rintro _ ⟨_, -, rfl⟩ _ ⟨_, -, rfl⟩
    exact .items hkl
  · have hpositions : refs.zipIdx.Pairwise fun t u => t.2 < u.2 := by
      rw [← List.pairwise_map (f := Prod.snd), List.zipIdx_map_snd]
      exact List.pairwise_lt_range'
    refine hpositions.imp fun hij => ?_
    simp only [foundConstructors, List.mem_map]
    rintro _ ⟨_, -, rfl⟩ _ ⟨_, -, rfl⟩
    exact .positions hij
  · intro a ha b hb
    obtain ⟨-, k, hk⟩ := mem_foundItems.1 ha
    obtain ⟨⟨r, i⟩, ht, hb⟩ := List.mem_flatMap.1 hb
    obtain ⟨-, c, hc⟩ := (mem_foundConstructors (List.mem_zipIdx_iff_getElem?.1 ht)).1 hb
    rw [hk, hc]
    exact .constructors

/-- The warnings with what each is about are those for all repetitions, one for each, by span, and
those at one span in the order of which repetition comes before which. -/
structure Reported (m : ModuleName) (refs : List ExportRef) (ws : List (Repetition × Warning)) :
    Prop where
  mem_iff : ∀ x w, (x, w) ∈ ws ↔ Warrants m refs x w
  once : (ws.map Prod.fst).Nodup
  ordered : ws.Pairwise fun a b =>
    compare a.2.span b.2.span = .lt ∨ a.2.span = b.2.span ∧ a.1.Before b.1

/-- Whether the first warning need not stand after the second. -/
def bySpan (a b : Repetition × Warning) : Bool := (compare a.2.span b.2.span).isLE

theorem bySpan_swap (a b : Repetition × Warning) :
    bySpan b a = (compare a.2.span b.2.span).swap.isLE :=
  congrArg Ordering.isLE OrientedCmp.eq_swap

theorem bySpan_total (a b : Repetition × Warning) : bySpan a b || bySpan b a := by
  rw [bySpan_swap a b, bySpan]
  cases compare a.2.span b.2.span <;> rfl

theorem reported_mergeSort : Reported m refs ((found m refs).mergeSort bySpan) := by
  have hperm := List.mergeSort_perm (found m refs) bySpan
  have hbefore : (found m refs).Pairwise fun a b => a.1.Before b.1 := pairwise_found
  have hstable := pairwise_mergeSort_of_pairwise (fun _ _ _ => TransCmp.isLE_trans) bySpan_total
    hbefore
  refine ⟨fun x w => hperm.mem_iff.trans mem_found, ?_, hstable.imp fun {a b} ⟨hle, htied⟩ => ?_⟩
  · have honce : ((found m refs).map Prod.fst).Nodup := by
      refine List.pairwise_map.2 (hbefore.imp fun hab heq => ?_)
      rw [heq] at hab
      exact hab.irrefl
    exact (hperm.map Prod.fst).nodup_iff.2 honce
  · cases hab : compare a.2.span b.2.span with
    | lt => exact .inl rfl
    | eq =>
      refine .inr ⟨LawfulEqOrd.eq_of_compare hab, htied ?_⟩
      rw [bySpan_swap, hab]
      rfl
    | gt => simp [bySpan, hab] at hle

theorem duplicates_eq : duplicates m refs = ((found m refs).mergeSort bySpan).map Prod.snd := by
  rw [duplicates, ← map_found]
  let byOwnSpan (w w' : Warning) : Bool := (compare w.span w'.span).isLE
  exact (List.map_mergeSort (f := Prod.snd) (s := byOwnSpan) fun _ _ _ _ => rfl).symm

theorem length_having : (having refs k).length = (refs.map (·.item.key)).count k := by
  rw [having, List.count, List.countP_map, List.countP_eq_length_filter]
  rfl

/-- Nothing is reported where no kind and name occurs twice and no ref lists a constructor twice. -/
theorem found_eq_nil_iff : found m refs = [] ↔
    (refs.map (·.item.key)).Nodup ∧ ∀ r ∈ refs, r.item.listed.Nodup := by
  simp only [List.eq_nil_iff_forall_not_mem, Prod.forall, mem_found, List.nodup_iff_count_le_one]
  constructor
  · intro h
    refine ⟨fun k => ?_, fun r hr c => ?_⟩
    · by_contra hk
      rw [← length_having, Nat.not_le] at hk
      exact h _ _ (.item (List.getElem?_eq_getElem hk))
    · by_contra hc
      rw [Nat.not_le] at hc
      obtain ⟨n, cs, hi, hcs⟩ := listed_of_count hc
      obtain ⟨i, hr⟩ := List.mem_iff_getElem?.1 hr
      exact h _ _ (.constructor (hr.trans (by rw [← hi])) (hcs ▸ hc))
  · intro ⟨hitems, hlists⟩ x w h
    cases h with
    | @item k second h =>
      have hk := hitems k
      rw [← length_having] at hk
      have := (List.getElem?_eq_some_iff.1 h).1
      omega
    | @constructor i c n cs span h hc =>
      have := hlists _ (List.mem_of_getElem? h) c
      simp only [ExportItem.listed] at this
      omega

theorem duplicates_eq_nil_iff : duplicates m refs = [] ↔
    (refs.map (·.item.key)).Nodup ∧ ∀ r ∈ refs, r.item.listed.Nodup := by
  rw [duplicates_eq, List.map_eq_nil_iff, ← List.length_eq_zero_iff, List.length_mergeSort,
    List.length_eq_zero_iff, found_eq_nil_iff]

/-- A single ref to a module repeats nothing. -/
theorem duplicates_module (m a : ModuleName) (span : Span) :
    duplicates m [⟨span, .module a⟩] = [] :=
  duplicates_eq_nil_iff.2 ⟨List.nodup_singleton _, by simp [ExportItem.listed]⟩

/-- How many refs list a repeated item beyond the first. -/
def surplus : Repetition × Warning → Nat
  | (.item _, .duplicateRef _ _ _ _ occurrences) => occurrences - 1
  | _ => 0

theorem sum_surplus_foundItems : ((foundItems m refs).map surplus).sum =
    ((keys refs).map fun k => (having refs k).length - 1).sum := by
  rw [foundItems]
  generalize keys refs = ks
  induction ks with
  | nil => rfl
  | cons k ks ih =>
    rw [List.filterMap_cons, List.map_cons, List.sum_cons, ← ih]
    rcases having refs k with _ | ⟨first, _ | ⟨second, rest⟩⟩ <;> simp [surplus]

theorem sum_surplus_found : ((found m refs).map surplus).sum =
    ((foundItems m refs).map surplus).sum := by
  have hnone : ∀ n ∈ (refs.zipIdx.flatMap fun t => foundConstructors m t.2 t.1).map surplus,
      n = 0 := by
    intro n hn
    obtain ⟨⟨x, w⟩, hw, rfl⟩ := List.mem_map.1 hn
    obtain ⟨⟨r, i⟩, ht, hw⟩ := List.mem_flatMap.1 hw
    obtain ⟨-, c, rfl⟩ := (mem_foundConstructors (List.mem_zipIdx_iff_getElem?.1 ht)).1 hw
    rfl
  rw [found, List.map_append, List.sum_append, List.sum_eq_zero hnone, Nat.add_zero]

theorem toFinset_keys : (keys refs).toFinset = (refs.map (·.item.key)).toFinset := by
  ext k
  simp [mem_keys]

theorem nodup_keys : (keys refs).Nodup := pairwise_keys.imp fun hkl => by
  rintro rfl
  simp at hkl

/-- All refs to an item but the first are in surplus. -/
theorem sum_surplus_add_card : ((found m refs).map surplus).sum +
    (refs.map (·.item.key)).toFinset.card = refs.length := by
  have hlength (k : ItemKey) (hk : k ∈ keys refs) :
      (having refs k).length - 1 + 1 = (refs.map (·.item.key)).count k := by
    rw [length_having]
    obtain ⟨r, hr, rfl⟩ := mem_keys.1 hk
    exact Nat.sub_add_cancel (List.count_pos_iff.2 (List.mem_map_of_mem hr))
  calc
    _ = ((keys refs).map fun k => (having refs k).length - 1).sum + (keys refs).length := by
      rw [sum_surplus_found, sum_surplus_foundItems, ← toFinset_keys,
        List.toFinset_card_of_nodup nodup_keys]
    _ = ((keys refs).map fun k => (having refs k).length - 1 + 1).sum := by
      rw [List.sum_map_add]
      simp
    _ = ((keys refs).map fun k => (refs.map (·.item.key)).count k).sum := by
      rw [List.map_congr_left hlength]
    _ = refs.length := by
      rw [← List.sum_toFinset _ nodup_keys, toFinset_keys, List.sum_toFinset_count_eq_length,
        List.length_map]

/-- To the warnings that are there one is added for each repetition and no other, by span. -/
theorem reported_warnDuplicates (d : WarningLog) (m : ModuleName) (refs : List ExportRef) :
    ∃ ws, Reported m refs ws ∧
      (d.warnDuplicates m refs).warnings = d.warnings ++ ws.map Prod.snd ∧
      (ws = [] ↔ (refs.map (·.item.key)).Nodup ∧ ∀ r ∈ refs, r.item.listed.Nodup) ∧
      (ws.map surplus).sum + (refs.map (·.item.key)).toFinset.card = refs.length := by
  have hperm := List.mergeSort_perm (found m refs) bySpan
  refine ⟨(found m refs).mergeSort bySpan, reported_mergeSort, ?_, ?_, ?_⟩
  · rw [WarningLog.warnDuplicates, WarningLog.merge, duplicates_eq]
  · rw [← duplicates_eq_nil_iff (m := m), duplicates_eq, List.map_eq_nil_iff]
  · rw [(hperm.map surplus).sum_eq, sum_surplus_add_card]

/-- At one span the item that is listed twice comes before the constructor. -/
example : (WarningLog.warnDuplicates {} ⟨"M"⟩
    [⟨.null, .type "T" (some ["A", "A"])⟩, ⟨.null, .value "f"⟩, ⟨.null, .type "T" none⟩]).warnings =
      [.duplicateRef ⟨"M"⟩ .null (.inNamespace .type) "T" 2,
        .duplicateRef ⟨"M"⟩ .null .dataConstructor "A" 2] := by
  cbv

end ExportRef

end ModuleExports
