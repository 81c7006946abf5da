/-!
Depth-first search over a finite set of nodes, and search with a queue. In depth, a node is entered
once, what it leads to is searched before it is left, and the result lists the nodes in the order in
which they were left. Main statements: the result holds every root that is a node, is closed under
what its nodes lead to, and holds nothing that the roots do not lead to.
-/
namespace ModuleExports
namespace Search

inductive Task (α : Type) where
  | enter (v : α)
  | leave (v : α)

variable {α : Type} [DecidableEq α]

/-- Works off the tasks; a node that is no longer unvisited is not entered again. -/
def run (next : α → List α) (tasks : List (Task α)) (unvisited : List α) : List α :=
  match tasks with
  | [] => []
  | .leave v :: rest => v :: run next rest unvisited
  | .enter v :: rest =>
    if v ∈ unvisited then
      run next ((next v).map .enter ++ .leave v :: rest) (unvisited.erase v)
    else run next rest unvisited
  termination_by (unvisited.length, tasks.length)
  decreasing_by
    all_goals simp_wf
    · exact Prod.Lex.right _ (by simp)
    · rename_i h
      have := List.length_pos_of_mem h
      exact Prod.Lex.left _ _ (by rw [List.length_erase_of_mem h]; omega)
    · exact Prod.Lex.right _ (by simp)

/-- The nodes that the roots lead to, the roots included, in the order in which they are left. -/
def finishing (next : α → List α) (nodes roots : List α) : List α :=
  run next (roots.map .enter) nodes

theorem mem_run_of_task {next : α → List α} {tasks : List (Task α)} {unvisited : List α} {v : α}
    (h : .leave v ∈ tasks ∨ .enter v ∈ tasks ∧ v ∈ unvisited) : v ∈ run next tasks unvisited := by
  fun_induction run next tasks unvisited with
  | case1 => simp at h
  | case2 unvisited w rest ih =>
    simp only [List.mem_cons, Task.leave.injEq, reduceCtorEq, false_or] at h ⊢
    grind
  | case3 unvisited w rest hw ih =>
    apply ih
    by_cases hv : v = w
    · simp [hv]
    · simp only [List.mem_cons, Task.enter.injEq, reduceCtorEq, false_or, hv] at h
      rcases h with h | h
      · exact .inl (by simp [h])
      · exact .inr ⟨by simp [h.1], (List.mem_erase_of_ne hv).2 h.2⟩
  | case4 unvisited w rest hw ih =>
    apply ih
    simp only [List.mem_cons, Task.enter.injEq, reduceCtorEq, false_or] at h
    grind

/-- What a node of the result leads to is in the result, unless it was visited before. -/
theorem mem_run_of_next {next : α → List α} {tasks : List (Task α)} {unvisited : List α} {v w : α}
    (hv : v ∈ run next tasks unvisited) (hl : .leave v ∉ tasks) (hw : w ∈ next v)
    (hu : w ∈ unvisited) : w ∈ run next tasks unvisited := by
  fun_induction run next tasks unvisited with
  | case1 => simp at hv
  | case2 unvisited x rest ih =>
    simp only [List.mem_cons, Task.leave.injEq, not_or] at hv hl ⊢
    exact .inr (ih (hv.resolve_left hl.1) hl.2 hu)
  | case3 unvisited x rest hx ih =>
    by_cases hwx : w = x
    · exact mem_run_of_task (.inl (by simp [hwx]))
    have hu := (List.mem_erase_of_ne hwx).2 hu
    by_cases hvx : v = x
    · exact mem_run_of_task (.inr ⟨by simp [← hvx, hw], hu⟩)
    · exact ih hv (by simpa [hvx] using hl) hu
  | case4 unvisited x rest hx ih => exact ih hv (by simpa using hl) hu

/-- What holds of all tasks and is handed on holds of the result. -/
theorem forall_mem_run {next : α → List α} {tasks : List (Task α)} {unvisited : List α}
    {P : α → Prop} (step : ∀ v w, P v → w ∈ next v → P w)
    (h : ∀ v, .enter v ∈ tasks ∨ .leave v ∈ tasks → P v) : ∀ v ∈ run next tasks unvisited, P v := by
  fun_induction run next tasks unvisited with
  | case1 => simp
  | case2 unvisited x rest ih =>
    have hx := h x (by simp)
    have ih := ih fun v hv => h v (by simpa using hv.imp_right .inr)
    simpa [hx] using ih
  | case3 unvisited x rest hx ih =>
    have hPx := h x (by simp)
    refine ih fun v hv => ?_
    simp only [List.mem_append, List.mem_map, List.mem_cons, Task.enter.injEq, Task.leave.injEq,
      exists_eq_right, reduceCtorEq, and_false, exists_false, false_or] at hv
    grind
  | case4 unvisited x rest hx ih => exact ih fun v hv => h v (by simpa using hv.imp_left .inr)

/-- The nodes that wait for their visit, and those that the search has not come across yet. -/
structure Frontier (α : Type) where
  queue : List α
  unseen : List α

/-- A node joins the queue when the search comes across it first. -/
def Frontier.meet (s : Frontier α) (w : α) : Frontier α :=
  if w ∈ s.unseen then ⟨s.queue ++ [w], s.unseen.erase w⟩ else s

/-- All nodes that the search has yet to visit or may come across. -/
def Frontier.nodes (s : Frontier α) : List α := s.queue ++ s.unseen

variable {s : Frontier α} {ws : List α} {w : α}

/-- A node that is met moves from the unseen ones to the queue, if it moves at all. -/
theorem Frontier.nodes_meet : (s.meet w).nodes.Perm s.nodes := by
  unfold meet nodes
  split
  next hw =>
    have hmove : ([w] ++ s.unseen.erase w).Perm s.unseen := (List.perm_cons_erase hw).symm
    rw [List.append_assoc]
    exact hmove.append_left s.queue
  next => exact .refl _

theorem Frontier.nodes_foldl_meet : (ws.foldl meet s).nodes.Perm s.nodes := by
  induction ws generalizing s with
  | nil => exact .refl _
  | cons w ws ih => exact ih.trans nodes_meet

/-- Visits the nodes of the queue one after the other, and lists them in this order. -/
def breadthFirst (next : α → List α) : Frontier α → List α
  | ⟨[], _⟩ => []
  | ⟨v :: rest, unseen⟩ => v :: breadthFirst next ((next v).foldl Frontier.meet ⟨rest, unseen⟩)
  termination_by s => s.nodes.length
  decreasing_by
    rw [Frontier.nodes_foldl_meet.length_eq]
    simp [Frontier.nodes]

end Search

end ModuleExports
