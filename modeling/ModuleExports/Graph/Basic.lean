import ModuleExports.Graph.Search
import ModuleExports.Name.Basic

/-!
The graph of the modules of a program, with an edge from each module to each module it depends on.
Modules and edges keep the order in which they were added, and adding one again changes nothing.
-/
namespace ModuleExports
open Std

structure DependencyGraph where
  modules : List ModuleName := []
  edges : List (ModuleName × ModuleName) := []
  modules_nodup : modules.Nodup := by simp
  edges_nodup : edges.Nodup := by simp
  edges_mem : ∀ e ∈ edges, e.1 ∈ modules ∧ e.2 ∈ modules := by simp
  deriving DecidableEq

/-- One addition to a graph. -/
inductive Growth where
  | insert (m : ModuleName)
  | connect (m d : ModuleName)
  deriving DecidableEq

namespace DependencyGraph

instance : EmptyCollection DependencyGraph := ⟨{}⟩

instance : Inhabited DependencyGraph := ⟨∅⟩

def contains (g : DependencyGraph) (m : ModuleName) : Bool := g.modules.contains m

def size (g : DependencyGraph) : Nat := g.modules.length

def isEmpty (g : DependencyGraph) : Bool := g.modules.isEmpty

/-- The place of a module in the order of their adding. -/
def index? (g : DependencyGraph) (m : ModuleName) : Option Nat := g.modules.idxOf? m

def insert (g : DependencyGraph) (m : ModuleName) : DependencyGraph :=
  if h : m ∈ g.modules then g
  else
    { g with
      modules := g.modules ++ [m]
      modules_nodup := by
        simp [List.nodup_append, g.modules_nodup]
        grind
      edges_mem := fun e he => by simp [g.edges_mem e he] }

/-- A dependency between modules that are not both in the graph is left out. -/
def connect (g : DependencyGraph) (m d : ModuleName) : DependencyGraph :=
  if h : m ∈ g.modules ∧ d ∈ g.modules ∧ (m, d) ∉ g.edges then
    { g with
      edges := g.edges ++ [(m, d)]
      edges_nodup := by
        simp [List.nodup_append, g.edges_nodup]
        grind
      edges_mem := fun e he => by
        rcases List.mem_append.1 he with he | he
        · exact g.edges_mem e he
        · obtain rfl := List.mem_singleton.1 he
          exact ⟨h.1, h.2.1⟩ }
  else g

def grow (g : DependencyGraph) : Growth → DependencyGraph
  | .insert m => g.insert m
  | .connect m d => g.connect m d

/-- What the additions make of the empty graph, one after the other. -/
def grown (steps : List Growth) : DependencyGraph := steps.foldl grow ∅

/-- What `m` depends on, oldest edge first. -/
def successors (g : DependencyGraph) (m : ModuleName) : List ModuleName :=
  (g.edges.filter (·.1 == m)).map Prod.snd

/-- What depends on `m`, oldest edge first. -/
def predecessors (g : DependencyGraph) (m : ModuleName) : List ModuleName :=
  (g.edges.filter (·.2 == m)).map Prod.fst

@[simp] theorem mem_successors {g : DependencyGraph} {m d : ModuleName} :
    d ∈ g.successors m ↔ (m, d) ∈ g.edges := by
  simp [successors]

@[simp] theorem mem_predecessors {g : DependencyGraph} {m d : ModuleName} :
    m ∈ g.predecessors d ↔ (m, d) ∈ g.edges := by
  simp [predecessors]

/-- The direct dependencies of a module, in increasing order. -/
def dependencies (g : DependencyGraph) (m : ModuleName) : List ModuleName :=
  ModuleName.distinct (g.successors m)

/-- The modules that depend on `m` directly, in increasing order. -/
def dependents (g : DependencyGraph) (m : ModuleName) : List ModuleName :=
  ModuleName.distinct (g.predecessors m)

/-- All other modules that depend on `m`, directly or through others. -/
def allDependents (g : DependencyGraph) (m : ModuleName) : ModuleSet :=
  (ExtTreeSet.ofList (Search.finishing g.predecessors g.modules [m])).erase m

/-- The frontier of a search that starts at `m`. -/
def frontier (g : DependencyGraph) (m : ModuleName) : Search.Frontier ModuleName :=
  ⟨[m], g.modules.erase m⟩

end DependencyGraph

end ModuleExports
