import ModuleExports.Proofs.Interface.Entries
import ModuleExports.Proofs.Reexport.Published
import ModuleExports.Resolution

/-!
Where the entries of a resolved module come from. Main statement: each is a name that the module
declares itself, or is taken over from another module in the environment that publishes it.
-/
namespace ModuleExports
open Interface

/-- An entry of the module `m` is one of its own names, or is taken over from another module. -/
inductive Sourced (env : Environment) (m : ModuleName) (own : Interface) (ns : Namespace)
    (n : String) (e : Entry ns) : Prop where
  | own (declared : e.origin = .declared m) (kept : own.KeptFrom ns n e)
  | taken {h : ModuleName} {y : Interface} {f : Entry ns} (other : h ≠ m)
      (module : env.get? h = some y) (found : y.get? ns n = some f)
      (origin : e.origin = f.origin.via h) (constructors : e.constructors ⊆ f.constructors)

theorem ModuleView.forall_moduleInterface {s : ModuleView} {x : ModuleName} {span : Span}
    {y own : Interface} (hx : x ≠ s.module) (h : (s.moduleInterface x span).result = .ok y) :
    y.Forall (Sourced s.env s.module own) := by
  intro ns n e he
  obtain ⟨key, r, constructors, hp, rfl, hr⟩ :=
    exists_publishes_of_moduleTable (moduleTable_of_moduleInterface h ns) he
  obtain ⟨records, -, -, hm⟩ := hp.exists_mem hx
  obtain ⟨z, f, hz, hf, rfl⟩ := reexport_eq_ok.1 hr
  refine .taken hm hz hf rfl ?_
  rw [Entry.constructors_reexported]
  exact List.filter_sublist.subset

theorem ModuleView.forall_addRef {s : ModuleView} {candidate x y : Interface} {r : ExportRef}
    (hc : candidate.Forall (Sourced s.env s.module candidate))
    (hx : x.Forall (Sourced s.env s.module candidate))
    (h : (s.addRef candidate x r).result = .ok y) :
    y.Forall (Sourced s.env s.module candidate) := by
  unfold addRef at h
  split at h
  next => exact except_pure_eq_ok.1 h ▸ hx
  next m _ =>
    split at h
    next => exact except_pure_eq_ok.1 h ▸ hc.overlay hx
    next hm =>
      obtain ⟨z, hz, h⟩ := Logged.result_bind_eq_ok.1 h
      exact except_pure_eq_ok.1 h ▸ hx.overlay (forall_moduleInterface hm hz)

namespace ModuleSource
variable {m : ModuleSource} {env : Environment} {settings : Settings} {x : Interface}

/-- Without an export list a module publishes its candidates, else its narrowed table completed. -/
theorem resolve_eq_ok (h : (m.resolve env settings).result = .ok x) :
    m.exportList = none ∧ x = m.candidate ∨ ∃ refs narrowed, m.exportList = some refs ∧
      m.candidate.narrow m.name refs = .ok narrowed ∧
      ((m.scope env settings).complete m.candidate narrowed refs).result = .ok x := by
  unfold resolve at h
  split at h
  next he => exact .inl ⟨he, (except_pure_eq_ok.1 h).symm⟩
  next refs he =>
    obtain ⟨narrowed, hn, h⟩ := Logged.result_bind_eq_ok.1 h
    obtain ⟨y, hy, h⟩ := Logged.result_bind_eq_ok.1 h
    obtain rfl : y = x := by
      dsimp only at h
      split at h <;> exact Except.ok.inj h
    exact .inr ⟨refs, narrowed, he, hn, hy⟩

/-- Every entry that a module publishes is one of its own names or taken over from another. -/
theorem forall_resolve (h : (m.resolve env settings).result = .ok x) :
    x.Forall (Sourced env m.name m.candidate) := by
  have hc : m.candidate.Forall (Sourced env m.name m.candidate) := fun ns n e he =>
    .own (forall_candidate _ _ ns n e he) ⟨e, he, rfl, fun _ hc => hc⟩
  rcases resolve_eq_ok h with ⟨-, rfl⟩ | ⟨refs, narrowed, -, hn, h⟩
  · exact hc
  · rw [ModuleView.complete, Logged.result_foldlM] at h
    refine foldlM_invariant (P := fun x => x.Forall (Sourced env m.name m.candidate))
      (fun _ _ r _ hy hz => ModuleView.forall_addRef hc hy hz) ?_ h
    refine (forall_narrow hn).imp fun ns n e hk => .own ?_ hk
    obtain ⟨f, hf, ho, -⟩ := hk
    exact ho.trans (forall_candidate _ _ ns n f hf)

end ModuleSource

end ModuleExports
