import ModuleExports.Graph.Basic

/-!
A graph of modules kept as numbered nodes, each with its name and edges between the numbers, and
beside them an index from names to numbers.
-/
namespace ModuleExports

/-- Which end of its edges a node is looked at from. -/
inductive Direction where
  | outgoing
  | incoming

namespace Direction
variable {α β : Type}

def near : Direction → α × α → α
  | outgoing => Prod.fst
  | incoming => Prod.snd

def far : Direction → α × α → α
  | outgoing => Prod.snd
  | incoming => Prod.fst

theorem near_map {f : α → β} {e : α × α} (dir : Direction) :
    dir.near (e.map f f) = f (dir.near e) := by
  cases dir <;> rfl

theorem far_map {f : α → β} {e : α × α} (dir : Direction) :
    dir.far (e.map f f) = f (dir.far e) := by
  cases dir <;> rfl

theorem near_mem {s : List α} {e : α × α} (dir : Direction) (h : e.1 ∈ s ∧ e.2 ∈ s) :
    dir.near e ∈ s := by
  cases dir
  · exact h.1
  · exact h.2

theorem far_mem {s : List α} {e : α × α} (dir : Direction) (h : e.1 ∈ s ∧ e.2 ∈ s) :
    dir.far e ∈ s := by
  cases dir
  · exact h.2
  · exact h.1

theorem ext_near_far {e e' : α × α} (dir : Direction) (hn : dir.near e = dir.near e')
    (hf : dir.far e = dir.far e') : e = e' := by
  cases dir
  · exact Prod.ext hn hf
  · exact Prod.ext hf hn

end Direction

structure IndexedGraph where
  names : List ModuleName := []
  edges : List (Nat × Nat) := []
  index : ModuleMap Nat := ∅

namespace IndexedGraph

instance : EmptyCollection IndexedGraph := ⟨{}⟩

/-- Adds a module that has no node yet, and returns the number of its node. -/
def insert (r : IndexedGraph) (m : ModuleName) : Nat × IndexedGraph :=
  match r.index[m]? with
  | some i => (i, r)
  | none =>
    let i := r.names.length
    (i, { r with names := r.names ++ [m], index := r.index.insert m i })

/-- Adds an edge between the nodes of two modules, if both have one and the edge is not there. -/
def connect (r : IndexedGraph) (m d : ModuleName) : IndexedGraph :=
  match r.index[m]?, r.index[d]? with
  | some i, some j => if (i, j) ∈ r.edges then r else { r with edges := r.edges ++ [(i, j)] }
  | _, _ => r

def contains (r : IndexedGraph) (m : ModuleName) : Bool := r.index.contains m

def size (r : IndexedGraph) : Nat := r.names.length

/-- The names at the other end of the edges of a module, in increasing order. -/
def neighbors (r : IndexedGraph) (dir : Direction) (m : ModuleName) : List ModuleName :=
  match r.index[m]? with
  | none => []
  | some i => ModuleName.inOrder
    ((r.edges.filter (dir.near · == i)).filterMap (r.names[dir.far ·]?))

def grow (r : IndexedGraph) : Growth → IndexedGraph
  | .insert m => (r.insert m).2
  | .connect m d => r.connect m d

def grown (steps : List Growth) : IndexedGraph := steps.foldl grow ∅

end IndexedGraph

end ModuleExports
