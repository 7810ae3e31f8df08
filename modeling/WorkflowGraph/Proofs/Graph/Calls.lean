import WorkflowGraph.Graph.Run
import WorkflowGraph.Proofs.Graph.Walk
import WorkflowGraph.Proofs.Node.Execution
import WorkflowGraph.Proofs.Thread

/-!
# Which threads the nodes of a graph touch

A graph reads and writes the checkpoints of its own thread, and its nodes touch threads below it
only: a subgraph has a thread below, and so does every task of a map. The nodes inside nodes are
reached by induction over the graphs that a node holds (`GraphNode.EveryGraph`).
-/

set_option autoImplicit false

namespace WorkflowGraph

open Activity

/-- Whether a call goes to an executor or a tool, or to a store and a thread of it that satisfy
a property. A pruning call keeps at least one checkpoint. -/
def Call.On (P : Store → String → Prop) : Call → Prop
  | .task _ _ => True
  | .tool _ _ => True
  | .load store thread => P store thread
  | .save store c => P store c.thread
  | .delete store thread => P store thread
  | .prune store thread keep => P store thread ∧ 1 ≤ keep

theorem Call.On.mono {P Q : Store → String → Prop} {c : Call} (h : c.On P)
    (hPQ : ∀ store thread, P store thread → Q store thread) : c.On Q := by
  cases c with
  | task => trivial
  | tool => trivial
  | load store thread => exact hPQ _ _ h
  | save store c => exact hPQ _ _ h
  | delete store thread => exact hPQ _ _ h
  | prune store thread keep => exact ⟨hPQ _ _ h.1, h.2⟩

theorem Call.IsOutside.on {P : Store → String → Prop} {c : Call} (h : c.IsOutside) : c.On P := by
  cases c with
  | task => trivial
  | tool => trivial
  | load | save | delete | prune => exact h.elim

/-! ## Nodes of a graph by their ids -/

namespace GraphNode

/-- The node with an id; of several nodes with one id it is the last. -/
def lookup? : List (String × GraphNode) → String → Option GraphNode
  | [], _ => none
  | (key, node) :: rest, id =>
    match lookup? rest id with
    | some found => some found
    | none => if key = id then some node else none

theorem runnerIn?_eq (nodes : List (String × GraphNode)) (id : String) :
    runnerIn? nodes id = (lookup? nodes id).map runner := by
  induction nodes with
  | nil => rfl
  | cons p rest ih =>
    obtain ⟨key, node⟩ := p
    unfold runnerIn? lookup?
    rw [ih]
    cases lookup? rest id with
    | some found => rfl
    | none =>
      by_cases h : key = id
      · simp [h]
      · simp [h]

theorem runnerIn?_of_lookup? {nodes : List (String × GraphNode)} {id : String} {node : GraphNode}
    (h : lookup? nodes id = some node) : runnerIn? nodes id = some node.runner := by
  rw [runnerIn?_eq, h]
  rfl

theorem mem_of_lookup? {nodes : List (String × GraphNode)} {id : String} {node : GraphNode}
    (h : lookup? nodes id = some node) : (id, node) ∈ nodes := by
  induction nodes with
  | nil => cases h
  | cons p rest ih =>
    obtain ⟨key, first⟩ := p
    unfold lookup? at h
    cases hrest : lookup? rest id with
    | some found =>
      rw [hrest] at h
      cases h
      exact List.mem_cons_of_mem _ (ih hrest)
    | none =>
      rw [hrest] at h
      by_cases hkey : key = id
      · rw [if_pos hkey] at h
        cases h
        exact hkey ▸ List.mem_cons_self
      · rw [if_neg hkey] at h
        cases h

/-- Whatever is run for an id is a node of the graph. -/
theorem exists_of_runnerIn? {nodes : List (String × GraphNode)} {id : String} {runner : Runner}
    (h : runnerIn? nodes id = some runner) :
    ∃ node, (id, node) ∈ nodes ∧ runner = node.runner := by
  rw [runnerIn?_eq, Option.map_eq_some_iff] at h
  obtain ⟨node, hnode, rfl⟩ := h
  exact ⟨node, mem_of_lookup? hnode, rfl⟩

theorem isSome_lookup? {nodes : List (String × GraphNode)} {id : String}
    (h : id ∈ nodes.map Prod.fst) : (lookup? nodes id).isSome := by
  induction nodes with
  | nil => simp at h
  | cons p rest ih =>
    obtain ⟨key, node⟩ := p
    unfold lookup?
    cases hrest : lookup? rest id with
    | some found => rfl
    | none =>
      rcases List.mem_cons.1 h with h | h
      · rw [if_pos h.symm]
        rfl
      · rw [hrest] at ih
        cases ih h

/-! ## Properties of all graphs inside a node -/

/-- Whether every graph inside a node, at any depth, has a property. -/
inductive EveryGraph (P : GraphFrame → List (String × GraphNode) → Prop) : GraphNode → Prop where
  | leaf (frame : NodeFrame) (action : Action) : EveryGraph P (.leaf frame action)
  | map (frame : NodeFrame) (spec : MapSpec) {inner : GraphNode} (h : EveryGraph P inner) :
    EveryGraph P (.map frame spec inner)
  | subgraph (frame : NodeFrame) (mappings : FieldMappings) {graph : GraphFrame}
    {nodes : List (String × GraphNode)} (here : P graph nodes)
    (inside : ∀ p ∈ nodes, EveryGraph P p.2) : EveryGraph P (.subgraph frame mappings graph nodes)

theorem EveryGraph.mono {P Q : GraphFrame → List (String × GraphNode) → Prop} {node : GraphNode}
    (h : node.EveryGraph P) (hPQ : ∀ g nodes, P g nodes → Q g nodes) : node.EveryGraph Q := by
  induction h with
  | leaf frame action => exact .leaf frame action
  | map frame spec _ ih => exact .map frame spec ih
  | subgraph frame mappings here _ ih => exact .subgraph frame mappings (hPQ _ _ here) ih

theorem everyGraph_of_forall {P : GraphFrame → List (String × GraphNode) → Prop}
    (node : GraphNode) (h : ∀ graph nodes, P graph nodes) : EveryGraph P node :=
  match node with
  | .leaf frame action => .leaf frame action
  | .map frame spec inner => .map frame spec (everyGraph_of_forall inner h)
  | .subgraph frame mappings graph nodes =>
    .subgraph frame mappings (h graph nodes) fun p _ => everyGraph_of_forall p.2 h
  termination_by sizeOf node
  decreasing_by
    · rw [GraphNode.map.sizeOf_spec]
      omega
    · rename_i hp
      have hlt := List.sizeOf_lt_of_mem hp
      have hpair : sizeOf p = 1 + sizeOf p.1 + sizeOf p.2 := rfl
      rw [GraphNode.subgraph.sizeOf_spec]
      omega

/-- The store that a graph keeps its checkpoints in, if it has one, satisfies a property. -/
def StoredIn (P : Store → Prop) (g : GraphFrame) (_ : List (String × GraphNode)) : Prop :=
  ∀ store, g.store = some store → P store

end GraphNode

theorem Graph.exists_of_runner? {g : Graph} {id : String} {runner : Runner}
    (h : g.runner? id = some runner) :
    ∃ node, GraphNode.lookup? g.nodes id = some node ∧ node.runner = runner := by
  unfold Graph.runner? at h
  rwa [GraphNode.runnerIn?_eq, Option.map_eq_some_iff] at h

/-! ## Calls of a graph on its own thread -/

namespace GraphFrame

variable {P : Call → Prop} {g : GraphFrame} {runner? : String → Option Runner}

/-- Whether the calls that a graph makes for one of its threads are among those given. -/
def Owns (P : Call → Prop) (g : GraphFrame) (thread : String) : Prop :=
  ∀ store, g.store = some store → ∀ c, ¬ c.IsOutside →
    c.On (fun s t => s = store ∧ t = thread) → P c

theorem load_obeys {thread : String} (h : g.Owns P thread) :
    (g.load thread).Obeys P fun _ => True := by
  unfold load
  cases hs : g.store with
  | none => trivial
  | some store => exact obeys_bind (obeys_perform (h store hs _ id ⟨rfl, rfl⟩)) fun _ _ => trivial

theorem reset_obeys {thread : String} (h : g.Owns P thread) :
    (g.reset thread).Obeys P fun _ => True := by
  unfold reset
  cases hs : g.store with
  | none => trivial
  | some store => exact obeys_bind (obeys_perform (h store hs _ id ⟨rfl, rfl⟩)) fun _ _ => trivial

theorem save_obeys {thread : String} (h : g.Owns P thread) (s : State) (next : Option String) :
    (g.save thread s next).Obeys P fun _ => True := by
  unfold save
  cases hs : g.store with
  | none => trivial
  | some store =>
    refine obeys_bind (obeys_perform (h store hs _ id ⟨rfl, rfl⟩)) ?_
    rintro (e | _) _
    · trivial
    · dsimp only
      split
      · trivial
      · next keep _ =>
        have hprune : P (.prune store thread (max keep 1)) :=
          h store hs _ id ⟨⟨rfl, rfl⟩, Nat.le_max_right keep 1⟩
        exact obeys_bind (obeys_perform hprune) fun _ _ => trivial

/-- Settling an outcome touches the thread by saving only. -/
theorem settle_calls {thread : String} (h : g.Owns P thread) (node : String) (s : State)
    (outcome : NodeOutcome) : (g.settle thread node s outcome).Obeys P fun _ => True := by
  have hsaved (s : State) (next : Option String) (onward : Onward) :
      (g.saveThen thread s next onward).Obeys P fun _ => True := by
    refine obeys_bind (save_obeys h s next) ?_
    rintro (e | _) _
    · trivial
    · trivial
  unfold settle
  cases outcome with
  | suspend suspension => exact hsaved _ _ _
  | proceed update =>
    dsimp only
    split
    · trivial
    · split
      · exact hsaved _ _ _
      · trivial
    · exact hsaved _ _ _

theorem enter_calls {scope : Scope} (h : g.Owns P scope.thread)
    (hrunner : ∀ id runner, runner? id = some runner → ∀ s resume,
      (runner s scope resume).Obeys P fun _ => True)
    (budget : Option Nat) (s : State) (node : String) (resume : Option Value) :
    (g.enter runner? scope budget s node resume).Obeys P fun _ => True := by
  unfold enter
  cases hr : runner? node with
  | none => trivial
  | some runner =>
    dsimp only
    split
    · trivial
    · next t _ =>
      unfold carryOut
      refine obeys_bind ((hrunner node runner hr t resume).withinOption budget) ?_
      rintro (_ | ⟨r, left⟩) _
      · trivial
      · dsimp only
        split
        · trivial
        · exact obeys_bind (settle_calls h _ _ _) fun _ _ => trivial

theorem walkFrom_calls {scope : Scope} (h : g.Owns P scope.thread)
    (hrunner : ∀ id runner, runner? id = some runner → ∀ s resume,
      (runner s scope resume).Obeys P fun _ => True)
    (budget : Option Nat) (s : State) (node : String) (resume : Option Value) (steps : Nat) :
    (g.walkFrom runner? scope budget s node resume steps).Obeys P fun _ => True := by
  induction steps generalizing budget s node resume with
  | zero => trivial
  | succ steps ih =>
    rw [walkFrom_succ]
    refine obeys_bind (enter_calls h hrunner budget s node resume) fun r _ => ?_
    unfold goOn
    split
    · trivial
    · exact ih _ _ _ _

theorem walk_calls {thread : String} (h : g.Owns P thread)
    (hrunner : ∀ id runner, runner? id = some runner → ∀ s resume,
      (runner s ⟨thread, g.config⟩ resume).Obeys P fun _ => True)
    (s : State) (start : String) (resume : Option Value) :
    (g.walk runner? s start thread resume).Obeys P fun _ => True := by
  unfold walk
  refine obeys_bind (walkFrom_calls h hrunner _ _ _ _ _) ?_
  rintro ⟨_ | _ | _, _⟩ _
  · trivial
  · trivial
  · trivial

theorem runThread_calls {thread : String} (h : g.Owns P thread)
    (hrunner : ∀ id runner, runner? id = some runner → ∀ s resume,
      (runner s ⟨thread, g.config⟩ resume).Obeys P fun _ => True) (input : Fields) :
    (g.runThread runner? input thread).Obeys P fun _ => True := by
  unfold runThread
  refine obeys_bind (load_obeys h) ?_
  rintro (e | _ | c) _
  · trivial
  · exact walk_calls h hrunner _ _ _
  · dsimp only
    split
    · split
      · trivial
      · exact walk_calls h hrunner _ _ _
    · split
      · exact walk_calls h hrunner _ _ _
      · exact walk_calls h hrunner _ _ _

theorem resumeThread_calls {thread : String} (h : g.Owns P thread)
    (hrunner : ∀ id runner, runner? id = some runner → ∀ s resume,
      (runner s ⟨thread, g.config⟩ resume).Obeys P fun _ => True) (value : Value) :
    (g.resumeThread runner? thread value).Obeys P fun _ => True := by
  unfold resumeThread
  refine obeys_bind (load_obeys h) ?_
  rintro (e | _ | c) _
  · trivial
  · trivial
  · dsimp only
    split
    · trivial
    · exact walk_calls h hrunner _ _ _

end GraphFrame

/-! ## Calls of nodes -/

theorem NodeFrame.execute_obeys {P : Call → Prop} {only : Suspension → Prop} {f : NodeFrame}
    {b : Behaviour} {s : State} {scope : Scope} {resume : Option Value}
    (hb : ∀ v : Visit, v.state = s → v.scope = scope → v.resume = resume →
      (b v).Obeys P (Attempt.SuspendsOnly only)) :
    (f.execute b s scope resume).Obeys P (NodeRun.Regular only) := by
  have hmeets : ∀ v : Visit, v.state = s → v.scope = scope → v.resume = resume → ∀ m, True →
      AttemptMeets (.ofCalls P) (fun _ => True) (fun s _ => only s) (b v) m := by
    intro v hs hscope hresume _ _
    refine (obeys_iff_meets.1 (hb v hs hscope hresume)).mono (fun _ _ => trivial) ?_
    intro a _ ha
    unfold NodeFrame.Ends
    split
    · next s hs => exact ha s hs
    · trivial
  refine obeys_iff_meets.2 ((execute_meets hmeets trivial).mono (fun _ _ => trivial) ?_)
  exact fun r _ hr => hr.2

theorem MapNode.behaviour_obeys {P : Call → Prop} {only : Suspension → Prop} (n : MapNode)
    (id : String) {inner : Runner} {v : Visit}
    (h : ∀ s index, (inner s (taskScope id v.scope index) none).Obeys P fun _ => True) :
    (n.behaviour id inner v).Obeys P (Attempt.SuspendsOnly only) := by
  unfold MapNode.behaviour
  split
  · rintro s ⟨⟩
  · rintro s ⟨⟩
  · refine obeys_bind (obeys_all ?_) ?_
    · intro p hp
      obtain ⟨⟨index, item⟩, _, rfl⟩ := List.mem_map.1 hp
      exact h _ _
    · intro runs _ s hs
      unfold MapNode.join at hs
      dsimp only at hs
      split at hs
      · cases hs
      · cases hs

/-- What a node may suspend with: an interrupt with its own resume key, and a subgraph with one
of a graph inside it. -/
def GraphNode.MaySuspend : GraphNode → Suspension → Prop
  | .leaf _ action, s => action.MaySuspend s
  | .map _ _ _, _ => False
  | .subgraph _ _ _ _, s => s.nested = true

/-- The threads that a node touches for a graph on a thread: those of the graphs inside it, each on
a thread that is derived from the one around it. -/
inductive GraphNode.Touches : GraphNode → String → String → Prop where
  | task {frame : NodeFrame} {spec : MapSpec} {inner : GraphNode} {scope : Scope} {thread : String}
    (index : Nat) (h : Touches inner (MapNode.taskScope frame.id scope index).thread thread) :
    Touches (.map frame spec inner) scope.thread thread
  | graph {frame : NodeFrame} {mappings : FieldMappings} {graph : GraphFrame}
    {nodes : List (String × GraphNode)} {scope : Scope} :
    Touches (.subgraph frame mappings graph nodes) scope.thread (scope.childThread frame.id)
  | inside {frame : NodeFrame} {mappings : FieldMappings} {graph : GraphFrame}
    {nodes : List (String × GraphNode)} {scope : Scope} {thread : String} {p : String × GraphNode}
    (hp : p ∈ nodes) (h : Touches p.2 (scope.childThread frame.id) thread) :
    Touches (.subgraph frame mappings graph nodes) scope.thread thread

/-- By induction on how deep the graph is that has the thread. -/
theorem GraphNode.Touches.inside_thread {node : GraphNode} {outer thread : String}
    (h : node.Touches outer thread) : Thread.Inside outer thread := by
  induction h with
  | task index _ ih => exact (Thread.inside_childThread _ _).trans ih
  | graph => exact Thread.inside_childThread _ _
  | inside _ _ ih => exact (Thread.inside_childThread _ _).trans ih

/-- **Nodes touch the threads of the graphs inside them only**, in the stores of these graphs. By
induction on the graphs inside the node. -/
theorem GraphNode.runner_touches {P : Store → Prop} {node : GraphNode}
    (h : node.EveryGraph (StoredIn P)) (s : State) (scope : Scope) (resume : Option Value) :
    (node.runner s scope resume).Obeys
      (Call.On fun store thread => P store ∧ node.Touches scope.thread thread)
      (NodeRun.Regular node.MaySuspend) := by
  induction h generalizing s scope resume with
  | leaf frame action =>
    apply NodeFrame.execute_obeys
    intro v _ _ _
    exact (action.behaviour_obeys frame.id v).mono (fun _ hc => hc.on) fun _ ha => ha
  | map frame spec _ ih =>
    apply NodeFrame.execute_obeys
    rintro v _ rfl _
    apply MapNode.behaviour_obeys
    intro t index
    refine (ih t (MapNode.taskScope frame.id v.scope index) none).mono ?_ fun _ _ => trivial
    exact fun c hc => hc.mono fun store thread ⟨hstore, hthread⟩ => ⟨hstore, .task index hthread⟩
  | @subgraph frame mappings graph nodes here _ ih =>
    apply NodeFrame.execute_obeys
    rintro v _ rfl _
    have howns : graph.Owns (Call.On fun store thread => P store ∧
          (GraphNode.subgraph frame mappings graph nodes).Touches v.scope.thread thread)
        (v.scope.childThread frame.id) := by
      intro store hs c _ hc
      refine hc.mono fun other thread ⟨hother, hthread⟩ => ?_
      rw [hother, hthread]
      exact ⟨here store hs, .graph⟩
    have hrunner : ∀ id runner, runnerIn? nodes id = some runner → ∀ t resume,
        (runner t ⟨v.scope.childThread frame.id, graph.config⟩ resume).Obeys
          (Call.On fun store thread => P store ∧
            (GraphNode.subgraph frame mappings graph nodes).Touches v.scope.thread thread)
          fun _ => True := by
      intro id runner hr t resume
      obtain ⟨node, hmem, rfl⟩ := exists_of_runnerIn? hr
      refine (ih _ hmem t _ resume).mono ?_ fun _ _ => trivial
      exact fun c hc => hc.mono fun store thread ⟨hstore, hthread⟩ =>
        ⟨hstore, .inside hmem hthread⟩
    have houtcome (r : RunResult) :
        (Attempt.of (mappings.outcome frame.id graph.name r)).SuspendsOnly
          (GraphNode.subgraph frame mappings graph nodes).MaySuspend := by
      intro s hs
      cases r with
      | complete => cases hs
      | suspended pending t =>
        cases hs
        exact rfl
      | failed => cases hs
    unfold FieldMappings.behaviour
    dsimp only
    split
    · exact obeys_bind (GraphFrame.resumeThread_calls howns hrunner _) fun r _ => houtcome r
    · refine obeys_bind (GraphFrame.reset_obeys howns) ?_
      rintro (e | _) _
      · rintro s ⟨⟩
      · exact obeys_bind (GraphFrame.runThread_calls howns hrunner _) fun r _ => houtcome r

/-- Nodes touch threads below that of their graph only. -/
theorem GraphNode.runner_obeys {P : Store → Prop} {node : GraphNode}
    (h : node.EveryGraph (StoredIn P)) (s : State) (scope : Scope) (resume : Option Value) :
    (node.runner s scope resume).Obeys
      (Call.On fun store thread => P store ∧ Thread.Inside scope.thread thread)
      (NodeRun.Regular node.MaySuspend) := by
  refine (runner_touches h s scope resume).mono (fun c hc => ?_) fun _ hr => hr
  exact hc.mono fun _ _ ⟨hstore, hthread⟩ => ⟨hstore, hthread.inside_thread⟩

end WorkflowGraph
