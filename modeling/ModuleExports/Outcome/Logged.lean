/-!
Computations that keep a log whether they succeed or fail. Main statements: the log of a sequence is
the log of its first part followed by that of what ran after it, and after a failure nothing runs.
-/
namespace ModuleExports

structure Logged (ω ε α : Type) where
  log : List ω
  result : Except ε α

namespace Logged
variable {ω ε α β : Type}

def emitAll (ws : List ω) : Logged ω ε Unit := ⟨ws, .ok ()⟩

def emit (w : ω) : Logged ω ε Unit := emitAll [w]

def ofExcept (r : Except ε α) : Logged ω ε α := ⟨[], r⟩

def fail (e : ε) : Logged ω ε α := ofExcept (.error e)

/-- After a failure nothing more runs, and what was logged before it stays. -/
protected def bind (x : Logged ω ε α) (f : α → Logged ω ε β) : Logged ω ε β :=
  match x.result with
  | .ok a => ⟨x.log ++ (f a).log, (f a).result⟩
  | .error e => ⟨x.log, .error e⟩

instance : Monad (Logged ω ε) where
  pure a := ofExcept (.ok a)
  bind := Logged.bind

@[simp] theorem log_pure (a : α) : (pure a : Logged ω ε α).log = [] := rfl

@[simp] theorem result_pure (a : α) : (pure a : Logged ω ε α).result = .ok a := rfl

@[simp] theorem log_emitAll (ws : List ω) : (emitAll ws : Logged ω ε Unit).log = ws := rfl

@[simp] theorem result_emitAll (ws : List ω) : (emitAll ws : Logged ω ε Unit).result = .ok () := rfl

@[simp] theorem log_ofExcept (r : Except ε α) : (ofExcept r : Logged ω ε α).log = [] := rfl

@[simp] theorem result_ofExcept (r : Except ε α) : (ofExcept r : Logged ω ε α).result = r := rfl

theorem bind_of_ok {x : Logged ω ε α} {a : α} (h : x.result = .ok a) (f : α → Logged ω ε β) :
    x >>= f = ⟨x.log ++ (f a).log, (f a).result⟩ := by
  simp [bind, Logged.bind, h]

theorem bind_of_error {x : Logged ω ε α} {e : ε} (h : x.result = .error e)
    (f : α → Logged ω ε β) : x >>= f = ⟨x.log, .error e⟩ := by
  simp [bind, Logged.bind, h]

instance : LawfulMonad (Logged ω ε) :=
  .mk' _
    (fun x => by rcases x with ⟨l, _ | _⟩ <;> simp [Functor.map, Logged.bind, ofExcept])
    (fun _ _ => rfl)
    (fun x f g => by
      rcases x with ⟨l, _ | a⟩
      · rfl
      · rcases h : f a with ⟨k, _ | b⟩ <;> simp [bind, Logged.bind, h])

end Logged

end ModuleExports
