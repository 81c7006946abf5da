import ModuleExports.Proofs.Provenance.Resolution

/-!
Chains of re-exports through an environment. Main statements: in a closed environment the chain of
every entry ends in the module that defines it, constructors can only be lost on the way, and
committing what was resolved in part of the environment keeps it closed.
-/
namespace ModuleExports

namespace Environment
variable {env env' : Environment} {m k home : ModuleName} {ns : Namespace} {n : String}

/-- The entry of a name in a module of the environment. -/
def lookup? (env : Environment) (m : ModuleName) (ns : Namespace) (n : String) :
    Option (Entry ns) :=
  (env.get? m).bind (·.get? ns n)

theorem Within.lookup? (h : env.Within env') {e : Entry ns} (he : env.lookup? m ns n = some e) :
    env'.lookup? m ns n = some e := by
  obtain ⟨x, hx, he⟩ := Option.bind_eq_some_iff.1 he
  exact Option.bind_eq_some_iff.2 ⟨x, h m x hx, he⟩

/-- Following the re-exports of a name hop by hop from `m` ends in `k`, which has no further hop. -/
inductive ChainEnds (env : Environment) (ns : Namespace) (n : String) :
    ModuleName → ModuleName → Prop where
  | here {m : ModuleName} {e : Entry ns} : env.lookup? m ns n = some e →
      e.origin.importedFrom = none → ChainEnds env ns n m m
  | hop {m h k : ModuleName} {e : Entry ns} : env.lookup? m ns n = some e →
      e.origin.importedFrom = some h → ChainEnds env ns n h k → ChainEnds env ns n m k

/-- Every entry is declared where it says, or was taken over from a module that publishes it. -/
structure Closed (env : Environment) : Prop where
  declared {m : ModuleName} {ns : Namespace} {n : String} {e : Entry ns} :
    env.lookup? m ns n = some e → e.origin.importedFrom = none → e.origin.definedIn = m
  hop {m h : ModuleName} {ns : Namespace} {n : String} {e : Entry ns} :
    env.lookup? m ns n = some e → e.origin.importedFrom = some h →
      h ≠ m ∧ ∃ f, env.lookup? h ns n = some f ∧ f.origin.definedIn = e.origin.definedIn ∧
        e.constructors ⊆ f.constructors
  ends {m : ModuleName} {ns : Namespace} {n : String} {e : Entry ns} :
    env.lookup? m ns n = some e → ∃ k, env.ChainEnds ns n m k

theorem closed_empty : ({} : Environment).Closed := by
  have hno {m : ModuleName} {ns : Namespace} {n : String} {e : Entry ns} :
      ({} : Environment).lookup? m ns n ≠ some e := by
    simp [lookup?, get?]
  exact ⟨fun he => absurd he hno, fun he => absurd he hno, fun he => absurd he hno⟩

theorem Within.chainEnds (h : env.Within env') (hc : env.ChainEnds ns n m k) :
    env'.ChainEnds ns n m k := by
  induction hc with
  | here he ho => exact .here (h.lookup? he) ho
  | hop he ho _ ih => exact .hop (h.lookup? he) ho ih

/-- The chain of an entry ends with an entry of the same home that has all its constructors. -/
theorem Closed.exists_end (hc : env.Closed) (h : env.ChainEnds ns n m k) {e : Entry ns}
    (he : env.lookup? m ns n = some e) : ∃ f, env.lookup? k ns n = some f ∧
      f.origin.importedFrom = none ∧ e.origin.definedIn = k ∧ e.constructors ⊆ f.constructors := by
  induction h generalizing e with
  | here hf ho =>
    obtain rfl := Option.some.inj (he.symm.trans hf)
    exact ⟨e, hf, ho, hc.declared he ho, fun _ hc => hc⟩
  | hop hf ho _ ih =>
    obtain rfl := Option.some.inj (he.symm.trans hf)
    obtain ⟨-, f, hf, hd, hs⟩ := hc.hop he ho
    obtain ⟨t, ht, ho, hd', hs'⟩ := ih hf
    exact ⟨t, ht, ho, hd ▸ hd', fun c hc => hs' (hs hc)⟩

/-- The chain of an entry ends in the module that defines the name. -/
theorem Closed.chainEnds_definedIn (hc : env.Closed) {e : Entry ns}
    (he : env.lookup? m ns n = some e) : env.ChainEnds ns n m e.origin.definedIn := by
  obtain ⟨k, hk⟩ := hc.ends he
  obtain ⟨-, -, -, hd, -⟩ := hc.exists_end hk he
  exact hd ▸ hk

/-- Committing a module that was resolved in part of a closed environment keeps it closed. -/
theorem Closed.commit (hc : env.Closed) {part : Environment} (hp : part.Within env)
    {own x : Interface} (hx : x.Forall (Sourced part m own)) (h : env.commit m x = .ok env') :
    env'.Closed := by
  have hw := within_commit h
  have cases {k : ModuleName} {ns : Namespace} {n : String} {e : Entry ns}
      (he : env'.lookup? k ns n = some e) :
      k = m ∧ Sourced part m own ns n e ∨ env.lookup? k ns n = some e := by
    obtain ⟨y, hy, he⟩ := Option.bind_eq_some_iff.1 he
    rw [get?_commit h] at hy
    split at hy
    next hk =>
      obtain rfl := Option.some.inj hy
      exact .inl ⟨hk.symm, hx ns n e he⟩
    next => exact .inr (Option.bind_eq_some_iff.2 ⟨y, hy, he⟩)
  have entry {h : ModuleName} {y : Interface} {ns : Namespace} {n : String} {f : Entry ns}
      (hy : part.get? h = some y) (hf : y.get? ns n = some f) : env.lookup? h ns n = some f :=
    Option.bind_eq_some_iff.2 ⟨y, hp h y hy, hf⟩
  constructor
  · intro k ns n e he ho
    rcases cases he with ⟨rfl, hd | ⟨-, -, -, ht⟩⟩ | he
    · rw [hd]
      rfl
    · simp [ht, Origin.via] at ho
    · exact hc.declared he ho
  · intro k l ns n e he ho
    rcases cases he with ⟨rfl, hd | @⟨j, y, f, hj, hy, hf, ht, hs⟩⟩ | he
    · simp [hd, Origin.declared] at ho
    · obtain rfl : j = l := by simpa [ht, Origin.via] using ho
      exact ⟨hj, f, hw.lookup? (entry hy hf), by rw [ht]; rfl, hs⟩
    · obtain ⟨hh, f, hf, hd, hs⟩ := hc.hop he ho
      exact ⟨hh, f, hw.lookup? hf, hd, hs⟩
  · intro k ns n e he
    rcases cases he with ⟨rfl, hd | ⟨-, hy, hf, ht, -⟩⟩ | he'
    · exact ⟨k, .here he (by rw [hd]; rfl)⟩
    · obtain ⟨l, hl⟩ := hc.ends (entry hy hf)
      exact ⟨l, .hop he (by rw [ht]; rfl) (hw.chainEnds hl)⟩
    · obtain ⟨l, hl⟩ := hc.ends he'
      exact ⟨l, hw.chainEnds hl⟩

end Environment

end ModuleExports
