import Mathlib.Data.List.Forall2
import ModuleExports.Outcome.Logged

/-!
What the result of a sequence of computations says of its parts. Main statements: taking the result
of a logged computation commutes with sequencing, folding and mapping, what every step of a fold
keeps holds at its end, a sequence fails only as its parts do, and what a fold or a map logged was
logged by the steps up to the first one that failed.
-/
namespace ModuleExports

/-- A member of two lists in a row stands in one of them. -/
theorem append_eq_append_cons {α : Type} {xs ys before after : List α} {a : α}
    (h : xs ++ ys = before ++ a :: after) : (∃ own, before = xs ++ own ∧ ys = own ++ a :: after) ∨
      ∃ later, xs = before ++ a :: later := by
  rcases List.append_eq_append_iff.1 h with ⟨own, hb, hy⟩ | ⟨later, hx, hl⟩
  · exact .inl ⟨own, hb, hy⟩
  · cases later with
    | nil => exact .inl ⟨[], by simpa using hx.symm, by simpa using hl.symm⟩
    | cons c later =>
      obtain ⟨rfl, -⟩ := List.cons.inj hl
      exact .inr ⟨later, hx⟩

/-- A member of one list has its partner in a list that matches it. -/
theorem exists_of_mem_forall₂ {α β : Type} {R : α → β → Prop} {xs : List α} {ys : List β} {x : α}
    (h : List.Forall₂ R xs ys) (hx : x ∈ xs) : ∃ y ∈ ys, R x y := by
  induction h with
  | nil => cases hx
  | @cons z y _ _ hzy _ ih =>
    rcases List.mem_cons.1 hx with rfl | hx
    · exact ⟨y, List.mem_cons_self, hzy⟩
    · obtain ⟨w, hw, hxw⟩ := ih hx
      exact ⟨w, List.mem_cons_of_mem y hw, hxw⟩

section Except
variable {ε α β : Type}

theorem except_bind_eq_ok {x : Except ε α} {f : α → Except ε β} {b : β} :
    x >>= f = .ok b ↔ ∃ a, x = .ok a ∧ f a = .ok b := by
  cases x <;> simp [bind, Except.bind]

theorem except_map_eq_ok {x : Except ε α} {f : α → β} {b : β} :
    f <$> x = .ok b ↔ ∃ a, x = .ok a ∧ f a = b := by
  cases x <;> simp [Functor.map, Except.map]

@[simp] theorem except_pure_eq_ok {a b : α} : (pure a : Except ε α) = .ok b ↔ a = b := by
  simp [pure, Except.pure]

/-- A list is mapped as a whole when each of its members is. -/
theorem mapM_eq_ok {f : α → Except ε β} {xs : List α} {ys : List β} :
    xs.mapM f = .ok ys ↔ List.Forall₂ (fun x y => f x = .ok y) xs ys := by
  induction xs generalizing ys with
  | nil => cases ys <;> simp [pure, Except.pure]
  | cons x xs ih =>
    simp only [List.mapM_cons, except_bind_eq_ok, except_pure_eq_ok, ih, List.forall₂_cons_left_iff]
    constructor
    · rintro ⟨y, hy, zs, hzs, rfl⟩
      exact ⟨y, zs, hy, hzs, rfl⟩
    · rintro ⟨y, zs, hy, hzs, rfl⟩
      exact ⟨y, hy, zs, hzs, rfl⟩

theorem mem_of_mapM_eq_ok {f : α → Except ε β} {xs : List α} {ys : List β}
    (h : xs.mapM f = .ok ys) {y : β} : y ∈ ys ↔ ∃ x ∈ xs, f x = .ok y := by
  rw [mapM_eq_ok] at h
  induction h with
  | nil => simp
  | cons hxy _ ih => simp [ih, hxy, eq_comm]

theorem exists_mapM_eq_ok {f : α → Except ε β} {xs : List α} (h : ∀ x ∈ xs, ∃ y, f x = .ok y) :
    ∃ ys, xs.mapM f = .ok ys := by
  induction xs with
  | nil => exact ⟨[], rfl⟩
  | cons x xs ih =>
    obtain ⟨y, hy⟩ := h x List.mem_cons_self
    obtain ⟨ys, hys⟩ := ih fun z hz => h z (List.mem_cons_of_mem x hz)
    exact ⟨y :: ys, by simp [hy, hys, bind, Except.bind]⟩

theorem exists_of_mapM_eq_ok {f : α → Except ε β} {xs : List α} {ys : List β}
    (h : xs.mapM f = .ok ys) : ∀ x ∈ xs, ∃ y, f x = .ok y := by
  rw [mapM_eq_ok] at h
  induction h with
  | nil => simp
  | cons hxy _ ih => exact List.forall_mem_cons.2 ⟨⟨_, hxy⟩, ih⟩

theorem forM_eq_ok {f : α → Except ε Unit} {xs : List α} :
    xs.forM f = .ok () ↔ ∀ x ∈ xs, f x = .ok () := by
  induction xs with
  | nil => simp [pure, Except.pure]
  | cons x xs ih =>
    change f x >>= (fun _ => xs.forM f) = .ok () ↔ _
    rw [except_bind_eq_ok, ih, List.forall_mem_cons]
    exact ⟨fun ⟨_, hx⟩ => hx, fun hx => ⟨(), hx⟩⟩

theorem exists_foldlM_eq_ok {f : β → α → Except ε β} {xs : List α} {b : β}
    (h : ∀ b, ∀ x ∈ xs, ∃ c, f b x = .ok c) : ∃ c, xs.foldlM f b = .ok c := by
  induction xs generalizing b with
  | nil => exact ⟨b, rfl⟩
  | cons x xs ih =>
    obtain ⟨c, hc⟩ := h b x List.mem_cons_self
    obtain ⟨d, hd⟩ := ih (b := c) fun b y hy => h b y (List.mem_cons_of_mem x hy)
    exact ⟨d, except_bind_eq_ok.2 ⟨c, hc, hd⟩⟩

theorem exists_of_foldlM_eq_ok {f : β → α → Except ε β} {xs : List α} {b c : β}
    (h : xs.foldlM f b = .ok c) : ∀ x ∈ xs, ∃ b c, f b x = .ok c := by
  induction xs generalizing b with
  | nil => simp
  | cons x xs ih =>
    obtain ⟨d, hd, h⟩ := except_bind_eq_ok.1 h
    exact List.forall_mem_cons.2 ⟨⟨b, d, hd⟩, ih h⟩

/-- What every step of a fold keeps holds at its end. -/
theorem foldlM_invariant {f : β → α → Except ε β} {P : β → Prop} {xs : List α} {b c : β}
    (step : ∀ b c, ∀ a ∈ xs, P b → f b a = .ok c → P c) (hb : P b) (h : xs.foldlM f b = .ok c) :
    P c := by
  induction xs generalizing b with
  | nil => exact except_pure_eq_ok.1 h ▸ hb
  | cons x xs ih =>
    obtain ⟨d, hd, h⟩ := except_bind_eq_ok.1 h
    exact ih (fun b c a ha => step b c a (by simp [ha])) (step b d x (by simp) hb hd) h

/-- Two folds agree when their steps agree wherever a kept property holds. -/
theorem foldlM_congr {f g : β → α → Except ε β} {P : β → Prop} {xs : List α} {b : β}
    (step : ∀ b c, ∀ a ∈ xs, P b → f b a = .ok c → P c)
    (agree : ∀ b, ∀ a ∈ xs, P b → f b a = g b a) (hb : P b) : xs.foldlM f b = xs.foldlM g b := by
  induction xs generalizing b with
  | nil => rfl
  | cons x xs ih =>
    rw [List.foldlM_cons, List.foldlM_cons, ← agree b x (by simp) hb]
    cases hd : f b x with
    | error e => rfl
    | ok d =>
      exact ih (fun b c a ha => step b c a (by simp [ha])) (fun b a ha => agree b a (by simp [ha]))
        (step b d x (by simp) hb hd)

/-- A fold commutes with a map of its states when each step does that it comes to. -/
theorem foldlM_hom {f g : β → α → Except ε β} {h : β → β} {P : List α → β → Prop}
    (step : ∀ b x xs, P (x :: xs) b → g (h b) x = h <$> f b x)
    (keep : ∀ b c x xs, P (x :: xs) b → f b x = .ok c → P xs c) {xs : List α} {b : β}
    (hb : P xs b) : xs.foldlM g (h b) = h <$> xs.foldlM f b := by
  induction xs generalizing b with
  | nil => rfl
  | cons x xs ih =>
    rw [List.foldlM_cons, List.foldlM_cons, step b x xs hb]
    cases hc : f b x with
    | error e => rfl
    | ok c => exact ih (keep b c x xs hb hc)

/-- Two folds that both succeed stay related when each step of the one and the other does. -/
theorem foldlM_rel {γ : Type} {f : β → α → Except ε β} {g : γ → α → Except ε γ}
    {R : β → γ → Prop} {xs : List α} {b c : β} {b' c' : γ}
    (step : ∀ x ∈ xs, ∀ b c b' c', R b b' → f b x = .ok c → g b' x = .ok c' → R c c')
    (hb : R b b') (h : xs.foldlM f b = .ok c) (h' : xs.foldlM g b' = .ok c') : R c c' := by
  induction xs generalizing b b' with
  | nil =>
    obtain rfl := except_pure_eq_ok.1 h
    obtain rfl := except_pure_eq_ok.1 h'
    exact hb
  | cons x xs ih =>
    obtain ⟨d, hd, h⟩ := except_bind_eq_ok.1 h
    obtain ⟨d', hd', h'⟩ := except_bind_eq_ok.1 h'
    exact ih (fun y hy => step y (List.mem_cons_of_mem x hy))
      (step x List.mem_cons_self b d b' d' hb hd hd') h h'

/-- Either each member of a list succeeds, or one is the first to fail. -/
theorem forall_ok_or_first_error (f : α → Except ε β) (xs : List α) :
    (∀ x ∈ xs, ∃ y, f x = .ok y) ∨ ∃ before a after e, xs = before ++ a :: after ∧
      (∀ x ∈ before, ∃ y, f x = .ok y) ∧ f a = .error e := by
  induction xs with
  | nil => exact .inl (by simp)
  | cons x xs ih =>
    cases hx : f x with
    | error e => exact .inr ⟨[], x, xs, e, rfl, by simp, hx⟩
    | ok y =>
      rcases ih with hxs | ⟨before, a, after, e, rfl, hb, ha⟩
      · exact .inl (List.forall_mem_cons.2 ⟨⟨y, hx⟩, hxs⟩)
      · exact .inr ⟨x :: before, a, after, e, rfl, List.forall_mem_cons.2 ⟨⟨y, hx⟩, hb⟩, ha⟩

/-- A fold fails as the first of its steps that does. -/
theorem foldlM_eq_error {f : β → α → Except ε β} {xs : List α} {b : β} {e : ε} :
    xs.foldlM f b = .error e ↔ ∃ before x after c, xs = before ++ x :: after ∧
      before.foldlM f b = .ok c ∧ f c x = .error e := by
  constructor
  · intro h
    induction xs generalizing b with
    | nil => cases h
    | cons x xs ih =>
      rw [List.foldlM_cons] at h
      cases hx : f b x with
      | error d =>
        rw [hx] at h
        obtain rfl := Except.error.inj h
        exact ⟨[], x, xs, b, rfl, rfl, hx⟩
      | ok c =>
        rw [hx] at h
        obtain ⟨before, y, after, d, rfl, hb, hy⟩ := ih h
        exact ⟨x :: before, y, after, d, rfl, except_bind_eq_ok.2 ⟨c, hx, hb⟩, hy⟩
  · rintro ⟨before, x, after, c, rfl, hb, hx⟩
    rw [List.foldlM_append, hb]
    change f c x >>= (fun d => after.foldlM f d) = .error e
    rw [hx]
    rfl

theorem foldlM_flatten {f : β → α → Except ε β} {xss : List (List α)} {b : β} :
    xss.flatten.foldlM f b = xss.foldlM (fun b xs => xs.foldlM f b) b := by
  induction xss generalizing b with
  | nil => rfl
  | cons xs xss ih => simp [List.foldlM_append, ih]

end Except

/-- Every failure that the result can be satisfies the predicate. -/
def FailsOnly {ε α : Type} (P : ε → Prop) (x : Except ε α) : Prop := ∀ e, x = .error e → P e

namespace FailsOnly
variable {ε α β : Type} {P : ε → Prop}

theorem ok (a : α) : FailsOnly P (.ok a : Except ε α) := fun _ h => nomatch h

theorem error {e : ε} (h : P e) : FailsOnly P (.error e : Except ε α) :=
  fun _ he => Except.error.inj he ▸ h

theorem imp {Q : ε → Prop} {x : Except ε α} (hx : FailsOnly P x) (h : ∀ e, P e → Q e) :
    FailsOnly Q x :=
  fun e he => h e (hx e he)

theorem bind {x : Except ε α} {f : α → Except ε β} (hx : FailsOnly P x)
    (hf : ∀ a, x = .ok a → FailsOnly P (f a)) : FailsOnly P (x >>= f) := by
  cases x with
  | error d => exact error (hx d rfl)
  | ok a => exact hf a rfl

theorem mapM {f : α → Except ε β} {xs : List α} (h : ∀ x ∈ xs, FailsOnly P (f x)) :
    FailsOnly P (xs.mapM f) := by
  induction xs with
  | nil => exact ok []
  | cons x xs ih =>
    rw [List.mapM_cons]
    have hxs := ih fun y hy => h y (List.mem_cons_of_mem x hy)
    exact (h x List.mem_cons_self).bind fun _ _ => hxs.bind fun _ _ => ok _

theorem forM {f : α → Except ε Unit} {xs : List α} (h : ∀ x ∈ xs, FailsOnly P (f x)) :
    FailsOnly P (xs.forM f) := by
  induction xs with
  | nil => exact ok ()
  | cons x xs ih =>
    rw [List.forM]
    exact (h x List.mem_cons_self).bind fun _ _ => ih fun y hy => h y (List.mem_cons_of_mem x hy)

theorem foldlM {f : β → α → Except ε β} {xs : List α} {b : β}
    (h : ∀ b, ∀ x ∈ xs, FailsOnly P (f b x)) : FailsOnly P (xs.foldlM f b) := by
  induction xs generalizing b with
  | nil => exact ok b
  | cons x xs ih =>
    rw [List.foldlM_cons]
    exact (h b x List.mem_cons_self).bind fun _ _ =>
      ih fun b y hy => h b y (List.mem_cons_of_mem x hy)

end FailsOnly

namespace Logged
variable {ω ε α β : Type}

theorem result_bind (x : Logged ω ε α) (f : α → Logged ω ε β) :
    (x >>= f).result = x.result >>= fun a => (f a).result := by
  cases h : x.result with
  | ok a => rw [bind_of_ok h]; rfl
  | error e => rw [bind_of_error h]; rfl

theorem result_bind_eq_ok {x : Logged ω ε α} {f : α → Logged ω ε β} {b : β} :
    (x >>= f).result = .ok b ↔ ∃ a, x.result = .ok a ∧ (f a).result = .ok b := by
  rw [result_bind, except_bind_eq_ok]

theorem result_map (f : α → β) (x : Logged ω ε α) : (f <$> x).result = f <$> x.result := by
  rw [← bind_pure_comp, result_bind, ← bind_pure_comp]
  rfl

/-- The log of a sequence that succeeds is made of the logs of its parts. -/
theorem log_bind_of_ok {x : Logged ω ε α} {f : α → Logged ω ε β} {a : α} (h : x.result = .ok a) :
    (x >>= f).log = x.log ++ (f a).log := by
  rw [bind_of_ok h]

theorem result_mapM (f : α → Logged ω ε β) (xs : List α) :
    (xs.mapM f).result = xs.mapM fun a => (f a).result := by
  induction xs with
  | nil => rfl
  | cons x xs ih =>
    rw [List.mapM_cons, List.mapM_cons, result_bind]
    congr 1
    funext y
    rw [result_bind, ih]
    rfl

theorem result_foldlM (f : β → α → Logged ω ε β) (xs : List α) (b : β) :
    (xs.foldlM f b).result = xs.foldlM (fun b a => (f b a).result) b := by
  induction xs generalizing b with
  | nil => rfl
  | cons x xs ih => simp [List.foldlM_cons, result_bind, ih]

/-- What a fold logged was logged by one of its steps, which the steps before it led to. -/
theorem exists_step_of_log_foldlM {f : β → α → Logged ω ε β} {xs : List α} {b : β} {w : ω}
    {before after : List ω} (h : (xs.foldlM f b).log = before ++ w :: after) :
    ∃ done x rest c own later, xs = done ++ x :: rest ∧ (done.foldlM f b).result = .ok c ∧
      before = (done.foldlM f b).log ++ own ∧ (f c x).log = own ++ w :: later := by
  induction xs generalizing b before with
  | nil => simp at h
  | cons x xs ih =>
    rw [List.foldlM_cons] at h
    cases hx : (f b x).result with
    | error e =>
      rw [bind_of_error hx] at h
      exact ⟨[], x, xs, b, before, after, rfl, rfl, rfl, h⟩
    | ok c =>
      rw [bind_of_ok hx] at h
      have hdone (done : List α) : (x :: done).foldlM f b =
          ⟨(f b x).log ++ (done.foldlM f c).log, (done.foldlM f c).result⟩ := by
        rw [List.foldlM_cons, bind_of_ok hx]
      rcases append_eq_append_cons h with ⟨own, rfl, hrest⟩ | ⟨later, hlog⟩
      · obtain ⟨done, y, rest, d, own, later, rfl, hd, rfl, hy⟩ := ih hrest
        refine ⟨x :: done, y, rest, d, own, later, rfl, ?_, ?_, hy⟩
        · rw [hdone, hd]
        · rw [hdone, List.append_assoc]
      · exact ⟨[], x, xs, b, before, later, rfl, rfl, rfl, hlog⟩

/-- The log of a fold holds no more than its steps may log, in their order. -/
theorem log_foldlM_sublist {γ : Type} {f : β → α → Logged ω ε β} {xs : List α} {b : β} {g : ω → γ}
    {h : α → List γ} (step : ∀ b, ∀ x ∈ xs, ((f b x).log.map g).Sublist (h x)) :
    ((xs.foldlM f b).log.map g).Sublist (xs.flatMap h) := by
  induction xs generalizing b with
  | nil => simp
  | cons x xs ih =>
    have hx := step b x List.mem_cons_self
    rw [List.foldlM_cons, List.flatMap_cons]
    cases hr : (f b x).result with
    | error e =>
      rw [bind_of_error hr]
      exact hx.trans (List.sublist_append_left _ _)
    | ok c =>
      rw [bind_of_ok hr, List.map_append]
      exact hx.append (ih fun b y hy => step b y (List.mem_cons_of_mem x hy))

theorem log_mapM_of_ok {f : α → Logged ω ε β} {xs : List α} {ys : List β}
    (h : (xs.mapM f).result = .ok ys) : (xs.mapM f).log = xs.flatMap fun x => (f x).log := by
  induction xs generalizing ys with
  | nil => rfl
  | cons x xs ih =>
    rw [List.mapM_cons] at h ⊢
    obtain ⟨y, hy, h⟩ := result_bind_eq_ok.1 h
    obtain ⟨zs, hzs, -⟩ := result_bind_eq_ok.1 h
    rw [log_bind_of_ok hy, log_bind_of_ok hzs, ih hzs]
    simp

/-- A list is mapped up to the first of its members that fails. -/
theorem mapM_of_first_error {f : α → Logged ω ε β} {before after : List α} {a : α} {e : ε}
    (hb : ∀ x ∈ before, ∃ y, (f x).result = .ok y) (ha : (f a).result = .error e) :
    (before ++ a :: after).mapM f = ⟨(before ++ [a]).flatMap fun x => (f x).log, .error e⟩ := by
  induction before with
  | nil =>
    rw [List.nil_append, List.mapM_cons, bind_of_error ha]
    simp
  | cons x before ih =>
    obtain ⟨y, hy⟩ := hb x List.mem_cons_self
    have hrest := ih fun z hz => hb z (List.mem_cons_of_mem x hz)
    rw [List.cons_append, List.mapM_cons, bind_of_ok hy, hrest, bind_of_error rfl]
    simp

/-- What follows a computation matters only at the value that it yields. -/
theorem bind_congr {x : Logged ω ε α} {f g : α → Logged ω ε β}
    (h : ∀ a, x.result = .ok a → f a = g a) : x >>= f = x >>= g := by
  cases hx : x.result with
  | ok a => rw [bind_of_ok hx, bind_of_ok hx, h a hx]
  | error e => rw [bind_of_error hx, bind_of_error hx]

/-- Everything that the computation logs satisfies the predicate. -/
def LogsOnly (P : ω → Prop) (x : Logged ω ε α) : Prop := ∀ w ∈ x.log, P w

namespace LogsOnly
variable {P : ω → Prop}

theorem ofExcept (r : Except ε α) : LogsOnly P (.ofExcept r : Logged ω ε α) := by
  simp [LogsOnly]

theorem bind {x : Logged ω ε α} {f : α → Logged ω ε β} (hx : LogsOnly P x)
    (hf : ∀ a, x.result = .ok a → LogsOnly P (f a)) : LogsOnly P (x >>= f) := by
  intro w hw
  cases h : x.result with
  | error e =>
    rw [bind_of_error h] at hw
    exact hx w hw
  | ok a =>
    rw [bind_of_ok h] at hw
    rcases List.mem_append.1 hw with hw | hw
    · exact hx w hw
    · exact hf a h w hw

theorem mapM {f : α → Logged ω ε β} {xs : List α} (h : ∀ x ∈ xs, LogsOnly P (f x)) :
    LogsOnly P (xs.mapM f) := by
  induction xs with
  | nil => exact ofExcept _
  | cons x xs ih =>
    rw [List.mapM_cons]
    have hxs := ih fun y hy => h y (List.mem_cons_of_mem x hy)
    exact (h x List.mem_cons_self).bind fun _ _ => hxs.bind fun _ _ => ofExcept _

theorem foldlM {f : β → α → Logged ω ε β} {xs : List α} {b : β}
    (h : ∀ b, ∀ x ∈ xs, LogsOnly P (f b x)) : LogsOnly P (xs.foldlM f b) := by
  induction xs generalizing b with
  | nil => exact ofExcept _
  | cons x xs ih =>
    rw [List.foldlM_cons]
    exact (h b x List.mem_cons_self).bind fun _ _ =>
      ih fun b y hy => h b y (List.mem_cons_of_mem x hy)

end LogsOnly

/-- A computation that succeeds and logs nothing does no more than yield its value. -/
theorem eq_pure_of_logsOnly {x : Logged ω ε α} {a : α} (hx : x.result = .ok a)
    (hlog : x.LogsOnly fun _ => False) : x = pure a := by
  obtain ⟨log, result⟩ := x
  obtain rfl : log = [] := List.eq_nil_iff_forall_not_mem.2 hlog
  obtain rfl : result = .ok a := hx
  rfl

end Logged

end ModuleExports
