import ModuleExports.Graph.Layers
import ModuleExports.Resolution

/-!
The schedule of a build: the modules to be resolved, the graph of their dependencies on each other,
and its layers. A schedule is refused when a module is scheduled or resolved already, when a
dependency is neither scheduled nor resolved, and when the dependencies form a cycle, in this order.
-/
namespace ModuleExports
open Std

/-- A module to be resolved, with the modules it says it depends on. -/
structure ScheduledModule extends ModuleSource where
  dependencies : List ModuleName := []
  deriving Inhabited

structure Schedule where
  graph : DependencyGraph
  layers : List (List ModuleName)
  units : ModuleMap ScheduledModule

namespace Schedule

/-- The modules by name; no name may be taken twice, nor by a module of `env`. -/
def index (env : Environment) (units : List ScheduledModule) :
    Except Failure (ModuleMap ScheduledModule) :=
  units.foldlM (fun known u =>
    if env.contains u.name || known.contains u.name then .error (.internal (.scheduledTwice u.name))
    else .ok (known.insert u.name u)) ∅

/-- Refuses a dependency that is neither scheduled nor in `env`. -/
def checkDependencies (env : Environment) (known : ModuleMap ScheduledModule)
    (u : ScheduledModule) : Except Failure Unit :=
  match u.dependencies.find? fun d => !(known.contains d || env.contains d) with
  | some d => .error (.internal (.unknownDependency d u.name))
  | none => .ok ()

/-- The scheduled modules and their dependencies on each other. -/
def dependencyGraph (units : List ScheduledModule) : DependencyGraph :=
  units.foldl (fun g u => u.dependencies.foldl (fun g d => g.connect u.name d) g)
    (units.foldl (fun g u => g.insert u.name) ∅)

def make (env : Environment) (units : List ScheduledModule) : Except Failure Schedule := do
  let known ← index env units
  units.forM (checkDependencies env known)
  let graph := dependencyGraph units
  return ⟨graph, ← graph.layers, known⟩

def find (p : Schedule) (m : ModuleName) : Except Failure ScheduledModule :=
  match p.units[m]? with
  | some u => .ok u
  | none => .error (.internal (.unplanned m))

end Schedule

end ModuleExports
