import ModuleExports.Build.Schedule

/-!
What has become of the modules of a build so far. A failure blocks every module that depends on the
one that failed; only a defect ends the build.
-/
namespace ModuleExports
open Std

structure Report where
  env : Environment
  warnings : ModuleMap (List Warning) := ∅
  failures : ModuleMap Failure := ∅
  /-- Modules left out because something they depend on failed. -/
  blocked : ModuleSet := ∅
  deriving DecidableEq, Inhabited

namespace Report

def succeeded (r : Report) : Bool := r.failures.isEmpty && r.blocked.isEmpty

def totalWarnings (r : Report) : Nat := r.warnings.values.foldl (fun n ws => n + ws.length) 0

/-- A module without warnings has no entry. -/
def enterWarnings (r : Report) (m : ModuleName) (ws : List Warning) : Report :=
  if ws.isEmpty then r else { r with warnings := r.warnings.insert m ws }

/-- Enters what the resolution of `m` came to. -/
def enter (g : DependencyGraph) (r : Report) (m : ModuleName) (o : Outcome Interface) :
    Except Failure Report :=
  match o.result with
  | .ok x => do
    let env ← r.env.commit m x
    return { r.enterWarnings m o.log with env }
  | .error e =>
    if e.isDefect then .error e
    else
      let r := r.enterWarnings m o.log
      .ok { r with
        failures := r.failures.insert m e
        blocked := r.blocked ∪ g.allDependents m }

end Report

end ModuleExports
