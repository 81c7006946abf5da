import Mathlib.Data.List.Basic
import ModuleExports.Import.Settling
import ModuleExports.Proofs.Outcome.Result

/-!
Which of several records a use of a name refers to. Main statement: a use is settled exactly when
its records lead to one home or just one of them came in otherwise than through an open import, and
the order of the records decides no more than which of those with one home is taken.
-/
namespace ModuleExports

/-- The list has just the modules with the property, each once and in increasing order. -/
def ModuleName.Enumerates (ms : List ModuleName) (P : ModuleName → Prop) : Prop :=
  ms.Pairwise (fun a b => compare a b = .lt) ∧ ∀ m, m ∈ ms ↔ P m

theorem ModuleName.enumerates_distinct {ms : List ModuleName} {P : ModuleName → Prop}
    (h : ∀ m, m ∈ ms ↔ P m) : Enumerates (distinct ms) P :=
  ⟨pairwise_distinct ms, fun m => mem_distinct.trans (h m)⟩

namespace UseSite
variable {site : UseSite} {records records' : List ImportRecord} {c : ImportRecord}

/-- All records lead to one home. -/
def HomesAgree (records : List ImportRecord) : Prop :=
  ∀ r ∈ records, ∀ t ∈ records, r.home = t.home

instance : Decidable (HomesAgree records) :=
  inferInstanceAs (Decidable (∀ r ∈ records, ∀ t ∈ records, r.home = t.home))

theorem homesAgree_cons_iff {first : ImportRecord} {rest : List ImportRecord} :
    HomesAgree (first :: rest) ↔ rest.all (·.home == first.home) := by
  simp only [List.all_eq_true, beq_iff_eq]
  constructor
  · intro h r hr
    exact h r (List.mem_cons_of_mem first hr) first List.mem_cons_self
  · intro h
    have hfirst : ∀ r ∈ first :: rest, r.home = first.home := List.forall_mem_cons.2 ⟨rfl, h⟩
    exact fun r hr t ht => (hfirst r hr).trans (hfirst t ht).symm

theorem HomesAgree.perm (h : HomesAgree records) (hp : records.Perm records') :
    HomesAgree records' :=
  fun r hr t ht => h r (hp.mem_iff.2 hr) t (hp.mem_iff.2 ht)

/-- The record `c` is the only one that came in otherwise than through an open import. -/
def SinglesOut (records : List ImportRecord) (c : ImportRecord) : Prop :=
  records.filter (·.style != .implicit) = [c]

theorem SinglesOut.perm (h : SinglesOut records c) (hp : records.Perm records') :
    SinglesOut records' c := by
  have hf := (hp.filter (·.style != .implicit)).symm
  rw [h] at hf
  exact List.perm_singleton.1 hf

theorem exists_singlesOut_iff :
    (∃ c, SinglesOut records c) ↔ records.countP (·.style != .implicit) = 1 := by
  rw [List.countP_eq_length_filter, List.length_eq_one_iff]
  rfl

/-- The warning that `c` hides the other records, where there is to be one. -/
def shadowings (site : UseSite) (records : List ImportRecord) (c : ImportRecord) : List Warning :=
  if site.reportShadowing ∧ c.style = .explicit then [site.shadowing records c] else []

/-- All that settling a use among records can come to. -/
inductive Settled (site : UseSite) (records : List ImportRecord) : Outcome ImportRecord → Prop where
  | empty : records = [] → Settled site records (.fail (.internal (.noRecords site.kind site.name)))
  | agreed {c : ImportRecord} : HomesAgree records → records.head? = some c →
      Settled site records (pure c)
  | single {c : ImportRecord} : ¬ HomesAgree records → SinglesOut records c →
      Settled site records ⟨site.shadowings records c, .ok c⟩
  | conflict : ¬ HomesAgree records → (∀ c, ¬ SinglesOut records c) →
      Settled site records (.fail (site.conflict records))

theorem settled (site : UseSite) (records : List ImportRecord) :
    site.Settled records (site.settle records) := by
  cases records with
  | nil => exact .empty rfl
  | cons first rest =>
    rw [settle]
    split
    next h => exact .agreed (homesAgree_cons_iff.2 h) rfl
    next h =>
      have h : ¬ HomesAgree (first :: rest) := fun h' => h (homesAgree_cons_iff.1 h')
      split
      next c hc =>
        have hw : (do
            if site.reportShadowing && c.style == .explicit then
              Logged.emit (site.shadowing (first :: rest) c)
            return c : Outcome ImportRecord) = ⟨site.shadowings (first :: rest) c, .ok c⟩ := by
          unfold shadowings
          cases site.reportShadowing <;> cases c.style <;> rfl
        rw [hw]
        exact .single h hc
      next hc => exact .conflict h fun c hs => hc c hs

theorem settle_eq_ok_iff : (site.settle records).result = .ok c ↔
    HomesAgree records ∧ records.head? = some c ∨ ¬ HomesAgree records ∧ SinglesOut records c := by
  have hs := site.settled records
  generalize site.settle records = x at hs ⊢
  cases hs with
  | empty h => simp [h, HomesAgree, Logged.fail]
  | agreed h hd => simp [h, hd]
  | single h hd =>
    simp only [h, Except.ok.injEq, false_and, not_false_eq_true, true_and, false_or]
    constructor
    · rintro rfl
      exact hd
    · intro hc
      simpa using hd.symm.trans hc
  | conflict h hd => simp [h, hd c, Logged.fail]

theorem mem_of_settle (h : (site.settle records).result = .ok c) : c ∈ records := by
  rcases settle_eq_ok_iff.1 h with ⟨-, hc⟩ | ⟨-, hc⟩
  · exact List.mem_of_head? hc
  · rw [SinglesOut] at hc
    exact List.mem_of_mem_filter (hc ▸ List.mem_singleton_self c)

theorem settle_eq_error {e : Failure} (h : (site.settle records).result = .error e) :
    records = [] ∧ e = .internal (.noRecords site.kind site.name) ∨
      ¬ HomesAgree records ∧ e = site.conflict records ∧ (site.settle records).log = [] := by
  have hs := site.settled records
  generalize site.settle records = x at hs h ⊢
  cases hs with
  | empty hn => exact .inl ⟨hn, (Except.error.inj h).symm⟩
  | agreed => cases h
  | single => cases h
  | conflict hagree => exact .inr ⟨hagree, (Except.error.inj h).symm, rfl⟩

theorem shadowings_perm (hp : records.Perm records') :
    site.shadowings records' c = site.shadowings records c := by
  have hmodules : ModuleName.distinct ((records'.map ImportRecord.module).filter (· != c.module)) =
      ModuleName.distinct ((records.map ImportRecord.module).filter (· != c.module)) :=
    ModuleName.distinct_congr fun m => ((hp.map _).filter _).symm.mem_iff
  rw [shadowings, shadowings, shadowing, shadowing, hmodules]

theorem conflict_perm (hp : records.Perm records') :
    site.conflict records' = site.conflict records := by
  have hhomes : ModuleName.distinct (records'.map ImportRecord.home) =
      ModuleName.distinct (records.map ImportRecord.home) :=
    ModuleName.distinct_congr fun m => (hp.map _).symm.mem_iff
  rw [conflict, conflict, hhomes]

theorem homesAgree_nil : HomesAgree [] := by
  simp [HomesAgree]

theorem Settled.unique {x y : Outcome ImportRecord} (hx : site.Settled records x)
    (hy : site.Settled records y) : x = y := by
  cases hx with
  | empty hn =>
    subst hn
    cases hy with
    | empty => rfl
    | agreed _ hd => cases hd
    | single hagree _ => exact absurd homesAgree_nil hagree
    | conflict hagree _ => exact absurd homesAgree_nil hagree
  | agreed hagree hc =>
    cases hy with
    | empty hn => simp [hn] at hc
    | agreed _ hd => rw [Option.some.inj (hc.symm.trans hd)]
    | single hagree' _ => exact absurd hagree hagree'
    | conflict hagree' _ => exact absurd hagree hagree'
  | single hagree hc =>
    cases hy with
    | empty hn => exact absurd (hn ▸ homesAgree_nil) hagree
    | agreed hagree' _ => exact absurd hagree' hagree
    | single _ hd => rw [List.singleton_inj.1 (hc.symm.trans hd)]
    | conflict _ hd => exact absurd hc (hd _)
  | conflict hagree hc =>
    cases hy with
    | empty hn => exact absurd (hn ▸ homesAgree_nil) hagree
    | agreed hagree' _ => exact absurd hagree' hagree
    | single _ hd => exact absurd hd (hc _)
    | conflict => rfl

/-- In another order the records come to the same, but for which of those with one home is taken. -/
theorem Settled.perm {x : Outcome ImportRecord} (hx : site.Settled records x)
    (hp : records.Perm records') :
    ∃ y, site.Settled records' y ∧ ImportRecord.home <$> y = ImportRecord.home <$> x := by
  cases hx with
  | empty hn =>
    subst hn
    exact ⟨_, .empty (List.nil_perm.1 hp), rfl⟩
  | @agreed c hagree hc =>
    obtain ⟨d, hd⟩ : ∃ d, records'.head? = some d := by
      refine Option.ne_none_iff_exists'.1 fun hnone => ?_
      rw [List.head?_eq_none_iff] at hnone
      rw [hnone, List.perm_nil] at hp
      simp [hp] at hc
    have hhome : d.home = c.home :=
      hagree d (hp.mem_iff.2 (List.mem_of_head? hd)) c (List.mem_of_head? hc)
    refine ⟨_, .agreed (hagree.perm hp) hd, ?_⟩
    rw [map_pure, map_pure, hhome]
  | single hagree hc =>
    have hagree' : ¬ HomesAgree records' := fun h => hagree (h.perm hp.symm)
    exact ⟨_, .single hagree' (hc.perm hp), by rw [shadowings_perm hp]⟩
  | conflict hagree hc =>
    have hagree' : ¬ HomesAgree records' := fun h => hagree (h.perm hp.symm)
    exact ⟨_, .conflict hagree' fun c hs => hc c (hs.perm hp.symm), by rw [conflict_perm hp]⟩

@[simp] theorem settle_singleton (site : UseSite) (r : ImportRecord) :
    site.settle [r] = pure r := by
  simp [settle]

/-- The order of the records is of no account to the home that a use leads to, nor to the failure or
the warnings that it raises. -/
theorem map_settle_perm (hp : records.Perm records') :
    ImportRecord.home <$> site.settle records' = ImportRecord.home <$> site.settle records := by
  obtain ⟨y, hy, hmap⟩ := (site.settled records).perm hp
  rw [(site.settled records').unique hy, hmap]

theorem settle_perm (hp : records.Perm records') (h : (site.settle records).result = .ok c) :
    ∃ d, (site.settle records').result = .ok d ∧ d.home = c.home ∧
      (d = c ∨ HomesAgree records) := by
  have hmap : (ImportRecord.home <$> site.settle records').result =
      (ImportRecord.home <$> site.settle records).result :=
    congrArg Logged.result (map_settle_perm hp)
  rw [Logged.result_map, Logged.result_map, h] at hmap
  obtain ⟨d, hd, hhome⟩ := except_map_eq_ok.1 hmap
  refine ⟨d, hd, hhome, ?_⟩
  rcases settle_eq_ok_iff.1 h with ⟨hagree, -⟩ | ⟨hagree, hc⟩
  · exact .inr hagree
  · left
    rcases settle_eq_ok_iff.1 hd with ⟨hagree', -⟩ | ⟨-, hd⟩
    · exact absurd (hagree'.perm hp.symm) hagree
    · exact List.singleton_inj.1 (hd.symm.trans (hc.perm hp))

/-- Records that do not agree lead to two homes at least. -/
theorem two_le_length_homes (h : ¬ HomesAgree records) :
    2 ≤ (ModuleName.distinct (records.map ImportRecord.home)).length := by
  by_contra hlt
  apply h
  intro r hr t ht
  have hmem (q : ImportRecord) (hq : q ∈ records) :
      q.home ∈ ModuleName.distinct (records.map ImportRecord.home) :=
    ModuleName.mem_distinct.2 (List.mem_map_of_mem hq)
  have hr := hmem r hr
  have ht := hmem t ht
  match hl : ModuleName.distinct (records.map ImportRecord.home) with
  | [] => simp [hl] at hr
  | [m] =>
    rw [hl, List.mem_singleton] at hr ht
    exact hr.trans ht.symm
  | _ :: _ :: _ =>
    rw [hl] at hlt
    simp at hlt

/-- The law of settling a use of a name among its records. -/
structure Settling (site : UseSite) (records : List ImportRecord) : Prop where
  succeeds : (∃ c, (site.settle records).result = .ok c) ↔
    HomesAgree records ∨ records.countP (·.style != .implicit) = 1
  /-- Of records with one home the first is taken, and nothing is warned of. -/
  agreed : HomesAgree records → ∃ c, records.head? = some c ∧ site.settle records = pure c
  /-- Else the only one that is not open is taken. If it is explicit it hides all that was imported
  from other modules. -/
  single : ¬ HomesAgree records → ∀ c, (site.settle records).result = .ok c →
    SinglesOut records c ∧ ∃ hidden : List ModuleName,
      ModuleName.Enumerates hidden (fun m => m ≠ c.module ∧ ∃ r ∈ records, r.module = m) ∧
      (site.settle records).log = if site.reportShadowing ∧ c.style = .explicit then
        [.shadowing site.module site.span site.kind site.name c.module hidden] else []
  conflict : ∀ e, (site.settle records).result = .error e →
    (site.settle records).log = [] ∧ ∃ homes : List ModuleName,
      e = .importConflict site.module site.span site.kind site.name homes ∧
      ModuleName.Enumerates homes (fun m => ∃ r ∈ records, r.home = m) ∧ 2 ≤ homes.length
  /-- In another order the records fail in the same way or come to the same home, with the same
  warnings. -/
  order : ∀ records', records.Perm records' →
    ImportRecord.home <$> site.settle records' = ImportRecord.home <$> site.settle records

theorem exists_settle_iff (h : records ≠ []) : (∃ c, (site.settle records).result = .ok c) ↔
    HomesAgree records ∨ records.countP (·.style != .implicit) = 1 := by
  rw [← exists_singlesOut_iff]
  constructor
  · rintro ⟨c, hc⟩
    rcases settle_eq_ok_iff.1 hc with ⟨hagree, -⟩ | ⟨-, hc⟩
    · exact .inl hagree
    · exact .inr ⟨c, hc⟩
  · intro hsettles
    by_cases hagree : HomesAgree records
    · obtain ⟨c, hc⟩ := Option.isSome_iff_exists.1 (List.isSome_head?.2 h)
      exact ⟨c, settle_eq_ok_iff.2 (.inl ⟨hagree, hc⟩)⟩
    · obtain ⟨c, hc⟩ := hsettles.resolve_left hagree
      exact ⟨c, settle_eq_ok_iff.2 (.inr ⟨hagree, hc⟩)⟩

/-- Where there is a record, uses are settled by the law. -/
theorem settling_of_ne_nil (site : UseSite) {records : List ImportRecord} (h : records ≠ []) :
    site.Settling records where
  succeeds := exists_settle_iff h
  agreed hagree := by
    obtain ⟨c, hc⟩ := Option.isSome_iff_exists.1 (List.isSome_head?.2 h)
    exact ⟨c, hc, (site.settled records).unique (.agreed hagree hc)⟩
  single hagree c hc := by
    rcases settle_eq_ok_iff.1 hc with ⟨hagree', -⟩ | ⟨-, hs⟩
    · exact absurd hagree' hagree
    · have hx := (site.settled records).unique (.single hagree hs)
      refine ⟨hs, _, ModuleName.enumerates_distinct fun m => ?_, congrArg Logged.log hx⟩
      simp [and_comm]
  conflict e he := by
    rcases settle_eq_error he with ⟨hn, -⟩ | ⟨hagree, rfl, hlog⟩
    · exact absurd hn h
    · refine ⟨hlog, _, rfl, ModuleName.enumerates_distinct fun m => ?_, two_le_length_homes hagree⟩
      simp
  order _ hp := map_settle_perm hp

/-- The records of a name opened in `A` and `C` and listed in an import of `B`. -/
def sampleRecords : List ImportRecord :=
  [⟨⟨"C"⟩, "g", ⟨"A"⟩, .null, .implicit⟩, ⟨⟨"B"⟩, "g", ⟨"B"⟩, .null, .explicit⟩,
    ⟨⟨"A"⟩, "g", ⟨"A"⟩, .null, .implicit⟩]

def sampleSite : UseSite := ⟨⟨"M"⟩, .inNamespace .value, "g", .null, true⟩

theorem settling_of_ne_nil_sampleRecords : sampleRecords ≠ [] ∧ ∃ c hidden,
    (sampleSite.settle sampleRecords).result = .ok c ∧ c.home = ⟨"B"⟩ ∧
    (sampleSite.settle sampleRecords).log =
      [.shadowing ⟨"M"⟩ .null (.inNamespace .value) "g" ⟨"B"⟩ hidden] ∧
    ModuleName.Enumerates hidden (fun m => m ≠ ⟨"B"⟩ ∧ ∃ r ∈ sampleRecords, r.module = m) ∧
    ImportRecord.home <$> sampleSite.settle sampleRecords.reverse =
      ImportRecord.home <$> sampleSite.settle sampleRecords := by
  have hne : sampleRecords ≠ [] := by decide
  have hlaw := settling_of_ne_nil sampleSite hne
  have hagree : ¬ HomesAgree sampleRecords := by decide
  obtain ⟨c, hc⟩ := hlaw.succeeds.2 (.inr (by decide))
  obtain ⟨hs, hidden, hlisted, hlog⟩ := hlaw.single hagree c hc
  obtain rfl : _ = c := List.singleton_inj.1 hs
  exact ⟨hne, _, hidden, hc, rfl, hlog, hlisted, hlaw.order _ (List.reverse_perm _).symm⟩

end UseSite

end ModuleExports
