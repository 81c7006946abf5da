import ModuleExports.Outcome.Failure
import ModuleExports.Graph.Basic

/-!
Dependency layers, and the cycle that stands in their way. A layer holds the modules whose
dependencies all lie in earlier layers, as early as possible; where some modules are left that all
wait for each other, a whole strongly connected component is reported. Layers can also be found in
one pass along an order of the modules, and the cycle in a list of the components.
-/
namespace ModuleExports

namespace DependencyGraph

/-- Whether `m` depends on none of the given modules. -/
def isReady (g : DependencyGraph) (left : List ModuleName) (m : ModuleName) : Bool :=
  (g.successors m).all fun d => !left.contains d

/-- The modules that `m` reaches through one edge or more. -/
def reachable (g : DependencyGraph) (m : ModuleName) : List ModuleName :=
  Search.finishing g.successors g.modules (g.successors m)

def onCycle (g : DependencyGraph) (m : ModuleName) : Bool := (g.reachable m).contains m

/-- The modules that `m` reaches and that reach it. -/
def component (g : DependencyGraph) (m : ModuleName) : List ModuleName :=
  (g.reachable m).filter fun n => (g.reachable n).contains m

/-- The cyclic component that was left last in a search from each module to its dependents, in
increasing order; none if no module is on a cycle. -/
def cycle (g : DependencyGraph) : List ModuleName :=
  match (Search.finishing g.predecessors g.modules g.modules).reverse.find? g.onCycle with
  | some m => ModuleName.distinct (g.component m)
  | none => []

/-- Takes away the modules that are ready until none is left. -/
def peel (g : DependencyGraph) (left : List ModuleName) :
    Except Failure (List (List ModuleName)) :=
  match left with
  | [] => .ok []
  | m :: ms =>
    if _ : (m :: ms).any (g.isReady (m :: ms)) then do
      let ready := (m :: ms).filter (g.isReady (m :: ms))
      return ModuleName.distinct ready ::
        (← g.peel ((m :: ms).filter fun n => !g.isReady (m :: ms) n))
    else .error (.circularDependency g.cycle)
  termination_by left.length
  decreasing_by
    rename_i h
    obtain ⟨n, hn, hr⟩ := List.any_eq_true.1 h
    exact List.length_filter_lt_length_iff_exists.2 ⟨n, hn, by simp [hr]⟩

/-- Dependencies first; the modules of a layer in increasing order. -/
def layers (g : DependencyGraph) : Except Failure (List (List ModuleName)) := g.peel g.modules

/-- One more than the greatest depth of what `m` depends on, of those that are known. -/
def depthAfter (g : DependencyGraph) (known : ModuleMap Nat) (m : ModuleName) : Nat :=
  (((g.successors m).filterMap (known[·]?)).map (· + 1)).max?.getD 0

/-- The depths of the modules of a list, found from the last module to the first. -/
def depths (g : DependencyGraph) (order : List ModuleName) : ModuleMap Nat :=
  order.foldr (fun m known => known.insert m (g.depthAfter known m)) ∅

/-- How many layers there are: one more than the greatest depth. -/
def layerCount (entries : List (ModuleName × Nat)) : Nat :=
  (entries.map Prod.snd).max?.elim 0 (· + 1)

/-- Puts one module after the other into the layer of its depth, and then each layer in order. -/
def layersOf (entries : List (ModuleName × Nat)) : List (List ModuleName) :=
  let empty := List.replicate (layerCount entries) []
  (entries.foldl (fun ls t => ls.modify t.2 (· ++ [t.1])) empty).map ModuleName.inOrder

/-- Whether a strongly connected component holds a cycle: it has two modules, or one that depends on
itself. -/
def isCyclic (g : DependencyGraph) (l : List ModuleName) : Bool :=
  1 < l.length || l.any fun m => g.edges.contains (m, m)

/-- The first of the components that holds a cycle, in increasing order. -/
def firstCyclic (g : DependencyGraph) (parts : List (List ModuleName)) : List ModuleName :=
  (parts.find? g.isCyclic).elim [] ModuleName.inOrder

end DependencyGraph

end ModuleExports
