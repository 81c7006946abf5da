import Mathlib
import ModuleExports.Proofs.Build.Accounting
import ModuleExports.Proofs.Provenance.Chains

/-!
Provenance across a build. Main statement: a build on top of a closed environment yields a closed
environment, in which the chain of every entry ends in the module that defines it, and a type has no
constructor there that its home module does not declare.
-/
namespace ModuleExports
open Std

/-- The module declares the type `n` with the constructor `c` among others. -/
def ModuleSource.DeclaresConstructor (m : ModuleSource) (n c : String) : Prop :=
  ∃ d ∈ m.declarations, ∃ cs, d.DeclaresType n cs ∧ c ∈ cs

namespace Build
variable {units : List ScheduledModule} {settings : Settings} {env : Environment} {s : Schedule}
  {r r' : Report} {ms : List ModuleName} {as : List Attempt}

/-- One module after another, what is entered keeps the environment closed. -/
theorem Progress.closed (hf : ∀ m u, s.find m = .ok u → u.name = m)
    (h : Progress settings s r ms as r') (hc : r.env.Closed) : r'.env.Closed := by
  induction h with
  | done => exact hc
  | skip _ _ ih => exact ih hc
  | @step r q r' m ms a as _ hu hw he _ ih =>
    apply ih
    obtain ⟨x, env, hx, henv, rfl⟩ | ⟨e, -, -, rfl⟩ := Report.enter_eq_ok he
    · rw [← hf m a.unit hu] at henv
      exact hc.commit hw (ModuleSource.forall_resolve hx) henv
    · simpa using hc

/-- A name without a further hop in a scheduled module is one of the module's own. -/
theorem keptFrom_candidate (hs : Schedule.Made env units s)
    (h : Progress settings s { env } s.layers.flatten as r) {u : ScheduledModule} (hu : u ∈ units)
    {ns : Namespace} {n : String} {e : Entry ns} (he : r.env.lookup? u.name ns n = some e)
    (ho : e.origin.importedFrom = none) : u.candidate.KeptFrom ns n e := by
  obtain ⟨y, hy, hye⟩ := Option.bind_eq_some_iff.1 he
  rcases (tables_iff hs h).1 hy with hy | ⟨a, ha, hau, hres⟩
  · simp [hs.fresh u hu] at hy
  · obtain rfl := unit_eq_of_name hs h ha hu hau
    cases ModuleSource.forall_resolve hres ns n e hye with
    | own _ kept => exact kept
    | taken _ _ _ origin _ => simp [origin, Origin.via] at ho

/-- A build on top of a closed environment, in turn or side by side, yields a closed environment.
Every chain in it ends in the module that defines the name, and if that module is one of those
built, it declares all constructors that any module publishes with the type. -/
theorem closed_of_build (arrival : Arrival) (hc : env.Closed)
    (h : sequential units settings env = .ok r ∨
      concurrent arrival units settings env = some (.ok r)) :
    r.env.Closed ∧ ∀ m ns n e, r.env.lookup? m ns n = some e →
      r.env.ChainEnds ns n m e.origin.definedIn ∧
      ∀ u ∈ units, u.name = e.origin.definedIn → ∃ f, u.candidate.get? ns n = some f ∧
        e.constructors ⊆ f.constructors ∧ ∀ c ∈ f.constructors, u.DeclaresConstructor n c := by
  obtain ⟨run, hrun, hr⟩ : ∃ run : Run Report, (run = runSequential units settings env ∨
      runConcurrent arrival units settings env = some run) ∧ run.result = .ok r := by
    rcases h with h | h
    · exact ⟨_, .inl rfl, h⟩
    · obtain ⟨run, hrun, hr⟩ := Option.map_eq_some_iff.1 h
      exact ⟨run, .inr hrun, hr⟩
  obtain ⟨s, hs, hp⟩ := exists_progress hrun hr
  have hclosed := hp.closed hs.name_of_find hc
  refine ⟨hclosed, fun m ns n e he => ?_⟩
  have hends := hclosed.chainEnds_definedIn he
  refine ⟨hends, fun u hu hname => ?_⟩
  obtain ⟨f, hf, ho, -, hsub⟩ := hclosed.exists_end hends he
  obtain ⟨d, hd, -, hkept⟩ := keptFrom_candidate hs hp hu (hname ▸ hf) ho
  exact ⟨d, hd, fun c hc => hkept (hsub hc),
    Interface.forall_candidate_constructors _ _ ns n d hd⟩

/-- A module that takes over from `B` what `B` took over from `A`. -/
def sampleRelay : ScheduledModule where
  name := ⟨"E"⟩
  imports := sampleImports ⟨"B"⟩
  exportList := some [⟨.null, .module ⟨"B"⟩⟩]

/-- A second build on top of the first one, with a chain of two hops. -/
theorem closed_of_build_sampleRelay : ∃ r q : Report, sequential sampleProgram {} {} = .ok r ∧
    sequential [sampleRelay] {} r.env = .ok q ∧
    q.env.lookup? ⟨"E"⟩ .type "T" = some ⟨["X"], ⟨⟨"A"⟩, some ⟨"B"⟩⟩⟩ ∧ q.env.Closed ∧
    q.env.ChainEnds .type "T" ⟨"E"⟩ ⟨"A"⟩ := by
  obtain ⟨r, hr, h⟩ := except_bind_eq_ok.1 (show (do
      let r ← sequential sampleProgram {} {}
      (fun q : Report => q.env.lookup? ⟨"E"⟩ .type "T") <$> sequential [sampleRelay] {} r.env) =
      .ok (some ⟨["X"], ⟨⟨"A"⟩, some ⟨"B"⟩⟩⟩) by cbv)
  obtain ⟨q, hq, he⟩ := except_map_eq_ok.1 h
  obtain ⟨hr', -⟩ := closed_of_build .asStarted Environment.closed_empty (.inl hr)
  obtain ⟨hq', hends⟩ := closed_of_build .asStarted hr' (.inl hq)
  exact ⟨r, q, hr, hq, he, hq', (hends _ _ _ _ he).1⟩

end Build

end ModuleExports
