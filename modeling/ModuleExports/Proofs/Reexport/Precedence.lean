import ModuleExports.ExportList.ModuleRefs
import ModuleExports.Proofs.Outcome.Result

/-!
What the refs to modules in an export list add up to. Main statements: a list comes to what its refs
to other modules come to one by one, and of several entries for a name that of the last such ref
stands, then that of the narrowed table, then the module's own.
-/
namespace ModuleExports

namespace Interface

theorem overlay_assoc (x y z : Interface) : (x.overlay y).overlay z = x.overlay (y.overlay z) :=
  ext_get? fun ns n => by simp [Option.or_assoc]

@[simp] theorem empty_overlay (x : Interface) : (∅ : Interface).overlay x = x :=
  ext_get? fun ns n => by simp

@[simp] theorem overlay_overlay_self (x y : Interface) : x.overlay (x.overlay y) = x.overlay y := by
  refine ext_get? fun ns n => ?_
  cases hy : y.get? ns n <;> simp [hy]

/-- Of several tables on top of each other the last one with the name counts. -/
theorem get?_foldl_overlay (x : Interface) (ys : List Interface) (ns : Namespace) (n : String) :
    (ys.foldl overlay x).get? ns n = (ys.reverse.findSome? (·.get? ns n)).or (x.get? ns n) := by
  induction ys generalizing x with
  | nil => simp
  | cons y ys ih =>
    rw [List.foldl_cons, ih, get?_overlay, List.reverse_cons, List.findSome?_append,
      Option.or_assoc]
    simp

end Interface

namespace ModuleView
variable (s : ModuleView) (candidate narrowed : Interface) (refs : List ExportRef)

/-- The refs to other modules, in list order. -/
def foreignRefs : List ExportRef := refs.filter (·.item.module?.any (· != s.module))

/-- Whether the list refers to the module itself. -/
def listsItself : Bool := refs.any (·.item.module? == some s.module)

/-- What one ref comes to on an empty table. -/
def alone (r : ExportRef) : Outcome Interface := s.complete candidate ∅ [r]

/-- The entry that the last ref with the name publishes. -/
def lastPublished? (ns : Namespace) (n : String) : Option (Entry ns) :=
  (s.foreignRefs refs).reverse.findSome? fun r =>
    (s.alone candidate r).result.toOption.bind (·.get? ns n)

/-- The names of the module itself that the list asks for as a whole. -/
def ownNames : Interface := if s.listsItself refs then candidate else ∅

variable {s candidate narrowed refs}

theorem complete_cons (r : ExportRef) : s.complete candidate narrowed (r :: refs) =
    s.addRef candidate narrowed r >>= fun acc => s.complete candidate acc refs :=
  rfl

section Cons
variable {r : ExportRef} {x : ModuleName}

theorem complete_cons_plain (hr : r.item.module? = none) :
    s.complete candidate narrowed (r :: refs) = s.complete candidate narrowed refs := by
  rw [complete_cons, addRef, hr]
  exact pure_bind _ _

theorem complete_cons_own (hr : r.item.module? = some s.module) :
    s.complete candidate narrowed (r :: refs) =
      s.complete candidate (candidate.overlay narrowed) refs := by
  rw [complete_cons, addRef, hr]
  simp

theorem alone_of_foreign (hr : r.item.module? = some x) (hx : x ≠ s.module) :
    s.alone candidate r = s.moduleInterface x r.span := by
  rw [alone, complete_cons, addRef, hr]
  simp [hx, complete]

theorem complete_cons_foreign (hr : r.item.module? = some x) (hx : x ≠ s.module) :
    s.complete candidate narrowed (r :: refs) =
      s.alone candidate r >>= fun y => s.complete candidate (narrowed.overlay y) refs := by
  rw [complete_cons, alone_of_foreign hr hx, addRef, hr]
  simp [hx]

end Cons

/-- A list comes to what its refs to other modules come to alone, laid one on top of the other. -/
theorem complete_eq : s.complete candidate narrowed refs = do
    let published ← (s.foreignRefs refs).mapM (s.alone candidate)
    return published.foldl Interface.overlay ((s.ownNames candidate refs).overlay narrowed) := by
  -- The table that the refs so far have made takes the place of the narrowed one.
  induction refs generalizing narrowed with
  | nil => simp [complete, foreignRefs, ownNames, listsItself]
  | cons r refs ih =>
    cases hr : r.item.module? with
    | none =>
      rw [complete_cons_plain hr, ih]
      simp [foreignRefs, ownNames, listsItself, hr]
    | some x =>
      by_cases hx : x = s.module
      · have hr : r.item.module? = some s.module := hr.trans (congrArg some hx)
        have hforeign : s.foreignRefs (r :: refs) = s.foreignRefs refs := by simp [foreignRefs, hr]
        have hown : s.ownNames candidate (r :: refs) = candidate := by
          simp [ownNames, listsItself, hr]
        have hbase : (s.ownNames candidate refs).overlay (candidate.overlay narrowed) =
            candidate.overlay narrowed := by
          unfold ownNames
          split <;> simp
        rw [complete_cons_own hr, ih, hforeign, hown, hbase]
      · have hforeign : s.foreignRefs (r :: refs) = r :: s.foreignRefs refs := by
          simp [foreignRefs, hr, hx]
        have hown : s.ownNames candidate (r :: refs) = s.ownNames candidate refs := by
          simp [ownNames, listsItself, hr, hx]
        rw [complete_cons_foreign hr hx, hforeign, hown, List.mapM_cons]
        simp only [ih, ← Interface.overlay_assoc, bind_assoc, pure_bind, List.foldl_cons]

theorem result_complete_eq_ok {x : Interface} :
    (s.complete candidate narrowed refs).result = .ok x ↔
      ∃ published, ((s.foreignRefs refs).mapM (s.alone candidate)).result = .ok published ∧
        published.foldl Interface.overlay ((s.ownNames candidate refs).overlay narrowed) = x := by
  rw [complete_eq, Logged.result_bind_eq_ok]
  simp

theorem exists_complete_eq_ok (narrowed : Interface)
    (h : ∀ r ∈ s.foreignRefs refs, ∃ y, (s.alone candidate r).result = .ok y) :
    ∃ x, (s.complete candidate narrowed refs).result = .ok x := by
  obtain ⟨published, hp⟩ := exists_mapM_eq_ok h
  rw [← Logged.result_mapM] at hp
  exact ⟨_, result_complete_eq_ok.2 ⟨published, hp, rfl⟩⟩

theorem complete_of_first_error {before after : List ExportRef} {r : ExportRef} {e : Failure}
    (hrefs : s.foreignRefs refs = before ++ r :: after)
    (hb : ∀ q ∈ before, ∃ y, (s.alone candidate q).result = .ok y)
    (hr : (s.alone candidate r).result = .error e) : s.complete candidate narrowed refs =
      ⟨(before ++ [r]).flatMap fun q => (s.alone candidate q).log, .error e⟩ := by
  rw [complete_eq, hrefs, Logged.mapM_of_first_error hb hr, Logged.bind_of_error rfl]

/-- The tables that the refs come to are searched like the refs. -/
theorem findSome?_of_mapM {published : List Interface}
    (h : ((s.foreignRefs refs).mapM (s.alone candidate)).result = .ok published) (ns : Namespace)
    (n : String) :
    published.reverse.findSome? (·.get? ns n) = s.lastPublished? candidate refs ns n := by
  rw [Logged.result_mapM, mapM_eq_ok] at h
  unfold lastPublished?
  generalize s.foreignRefs refs = foreign at h ⊢
  induction h with
  | nil => rfl
  | cons hr _ ih => simp [List.findSome?_append, ih, hr, Except.toOption]

theorem get?_ownNames (ns : Namespace) (n : String) : (s.ownNames candidate refs).get? ns n =
    if s.listsItself refs then candidate.get? ns n else none := by
  unfold ownNames
  split <;> simp

/-- A name has the entry of the last ref that publishes it, else its narrowed one, else its own. -/
theorem get?_complete {x : Interface} (h : (s.complete candidate narrowed refs).result = .ok x)
    (ns : Namespace) (n : String) : x.get? ns n = ((s.lastPublished? candidate refs ns n).or
      (narrowed.get? ns n)).or (if s.listsItself refs then candidate.get? ns n else none) := by
  obtain ⟨published, hp, rfl⟩ := result_complete_eq_ok.1 h
  rw [Interface.get?_foldl_overlay, findSome?_of_mapM hp, Interface.get?_overlay, get?_ownNames,
    Option.or_assoc]

theorem exists_complete_iff : (∃ x, (s.complete candidate narrowed refs).result = .ok x) ↔
    ∀ r ∈ s.foreignRefs refs, ∃ y, (s.alone candidate r).result = .ok y := by
  refine ⟨?_, exists_complete_eq_ok narrowed⟩
  rintro ⟨x, hx⟩
  rcases forall_ok_or_first_error (fun r => (s.alone candidate r).result) (s.foreignRefs refs) with
    hall | ⟨before, r, after, e, hrefs, hb, hr⟩
  · exact hall
  · rw [complete_of_first_error hrefs hb hr] at hx
    cases hx

theorem complete_eq_error_iff {e : Failure} :
    (s.complete candidate narrowed refs).result = .error e ↔
      ∃ before r after, s.foreignRefs refs = before ++ r :: after ∧
        (∀ q ∈ before, ∃ y, (s.alone candidate q).result = .ok y) ∧
        (s.alone candidate r).result = .error e := by
  constructor
  · intro he
    rcases forall_ok_or_first_error (fun r => (s.alone candidate r).result) (s.foreignRefs refs) with
      hall | ⟨before, r, after, d, hrefs, hb, hr⟩
    · obtain ⟨x, hx⟩ := exists_complete_eq_ok narrowed hall
      rw [hx] at he
      cases he
    · rw [complete_of_first_error hrefs hb hr] at he
      obtain rfl := Except.error.inj he
      exact ⟨before, r, after, hrefs, hb, hr⟩
  · rintro ⟨before, r, after, hrefs, hb, hr⟩
    rw [complete_of_first_error hrefs hb hr]

/-- Adding the same refs once more adds nothing. -/
theorem complete_again {x : Interface} (hx : (s.complete candidate narrowed refs).result = .ok x) :
    (s.complete candidate x refs).result = .ok x := by
  obtain ⟨y, hy⟩ := exists_complete_eq_ok x (exists_complete_iff.1 ⟨x, hx⟩)
  have hxy : y = x := by
    refine Interface.ext_get? fun ns n => ?_
    rw [get?_complete hy, get?_complete hx]
    cases s.lastPublished? candidate refs ns n <;> cases narrowed.get? ns n <;> simp
  rw [hy, hxy]

/-- The law of the refs to modules in an export list. -/
structure Precedence (s : ModuleView) (candidate narrowed : Interface) (refs : List ExportRef) :
    Prop where
  succeeds : (∃ x, (s.complete candidate narrowed refs).result = .ok x) ↔
    ∀ r ∈ s.foreignRefs refs, ∃ y, (s.alone candidate r).result = .ok y
  /-- The list fails as the first ref to another module that fails alone. -/
  fails : ∀ e, (s.complete candidate narrowed refs).result = .error e ↔
    ∃ before r after, s.foreignRefs refs = before ++ r :: after ∧
      (∀ q ∈ before, ∃ y, (s.alone candidate q).result = .ok y) ∧
      (s.alone candidate r).result = .error e
  log_of_ok : ∀ x, (s.complete candidate narrowed refs).result = .ok x →
    (s.complete candidate narrowed refs).log =
      (s.foreignRefs refs).flatMap fun r => (s.alone candidate r).log
  log_of_error : ∀ before r after e, s.foreignRefs refs = before ++ r :: after →
    (∀ q ∈ before, ∃ y, (s.alone candidate q).result = .ok y) →
    (s.alone candidate r).result = .error e →
      (s.complete candidate narrowed refs).log =
        (before ++ [r]).flatMap fun q => (s.alone candidate q).log
  entry : ∀ x, (s.complete candidate narrowed refs).result = .ok x → ∀ ns n, x.get? ns n =
    ((s.lastPublished? candidate refs ns n).or (narrowed.get? ns n)).or
      (if s.listsItself refs then candidate.get? ns n else none)
  /-- Nothing else in the list matters, nor where it refers to the module itself. -/
  others : ∀ refs', s.foreignRefs refs' = s.foreignRefs refs →
    s.listsItself refs' = s.listsItself refs →
      s.complete candidate narrowed refs' = s.complete candidate narrowed refs
  again : ∀ x, (s.complete candidate narrowed refs).result = .ok x →
    (s.complete candidate x refs).result = .ok x

/-- Whatever the list and the tables that it completes, its refs to modules obey the law. -/
theorem precedence (s : ModuleView) (candidate narrowed : Interface) (refs : List ExportRef) :
    s.Precedence candidate narrowed refs where
  succeeds := exists_complete_iff
  fails _ := complete_eq_error_iff
  log_of_ok x hx := by
    obtain ⟨published, hp, -⟩ := result_complete_eq_ok.1 hx
    rw [complete_eq, Logged.log_bind_of_ok hp, Logged.log_mapM_of_ok hp]
    simp
  log_of_error before r after e hrefs hb hr := by
    rw [complete_of_first_error hrefs hb hr]
  entry x hx := get?_complete hx
  others refs' hforeign hself := by
    rw [complete_eq, complete_eq, hforeign, ownNames, ownNames, hself]
  again x hx := complete_again hx

end ModuleView

end ModuleExports
