import WorkflowGraph.Proofs.Graph.Closed

/-!
# Graphs without interrupts

A node suspends where it is an interrupt, or where a graph inside it does. A graph suspends where
one of its nodes does, or where it has loaded a checkpoint that waits for a value. A graph that
keeps no checkpoints and has no interrupt at any depth therefore never suspends, whatever the
answers are that it gets (`Graph.Uninterrupted.serves_obeys`).
-/

set_option autoImplicit false

namespace WorkflowGraph

open Activity

/-- Whether a node is another one or stands inside it, at any depth of maps and subgraphs. -/
inductive GraphNode.Inside (node : GraphNode) : GraphNode → Prop where
  | self : Inside node node
  | map (frame : NodeFrame) (spec : MapSpec) {inner : GraphNode} (h : Inside node inner) :
    Inside node (.map frame spec inner)
  | subgraph (frame : NodeFrame) (mappings : FieldMappings) (graph : GraphFrame)
    {nodes : List (String × GraphNode)} {p : String × GraphNode} (hp : p ∈ nodes)
    (h : Inside node p.2) : Inside node (.subgraph frame mappings graph nodes)

/-- Whether a node is no interrupt and has none inside it, and no graph inside it keeps
checkpoints. -/
inductive GraphNode.Uninterrupted : GraphNode → Prop where
  | leaf (frame : NodeFrame) {action : Action} (h : ∀ n, action ≠ .interrupt n) :
    Uninterrupted (.leaf frame action)
  | map (frame : NodeFrame) (spec : MapSpec) {inner : GraphNode} (h : Uninterrupted inner) :
    Uninterrupted (.map frame spec inner)
  | subgraph (frame : NodeFrame) (mappings : FieldMappings) {graph : GraphFrame}
    {nodes : List (String × GraphNode)} (hstore : graph.store = none)
    (inside : ∀ p ∈ nodes, Uninterrupted p.2) :
    Uninterrupted (.subgraph frame mappings graph nodes)

/-- By induction on how deep the node stands. -/
theorem GraphNode.Inside.not_interrupt {node outer : GraphNode} (h : node.Inside outer)
    (houter : outer.Uninterrupted) (frame : NodeFrame) (n : InterruptNode) :
    node ≠ .leaf frame (.interrupt n) := by
  induction h with
  | self =>
    rintro rfl
    cases houter with
    | leaf _ h => exact h n rfl
  | map _ _ _ ih =>
    cases houter with
    | map _ _ hinner => exact ih hinner
  | subgraph _ _ _ hp _ ih =>
    cases houter with
    | subgraph _ _ _ inside => exact ih (inside _ hp)

/-- Whether a graph keeps no checkpoints and has no interrupt at any depth. -/
structure Graph.Uninterrupted (g : Graph) : Prop where
  store : g.frame.store = none
  nodes : ∀ p ∈ g.nodes, p.2.Uninterrupted

/-- Whether a run has ended at an interrupt. -/
def RunResult.IsSuspended : RunResult → Prop
  | .suspended _ _ => True
  | _ => False

/-! ## Walks over nodes that do not suspend -/

namespace GraphFrame

variable {g : GraphFrame} {runner? : String → Option Runner}

/-- Whether a step ends the walk at an interrupt. -/
def Onward.IsSuspended : Onward → Prop
  | .stop (.suspended _) => True
  | _ => False

/-- The nodes that a graph executes on a thread never suspend. -/
def Unhalting (g : GraphFrame) (runner? : String → Option Runner) (thread : String) : Prop :=
  ∀ id runner, runner? id = some runner → ∀ s resume,
    (runner s ⟨thread, g.config⟩ resume).Obeys (fun _ => True) (NodeRun.Regular fun _ => False)

theorem settle_proceed_obeys (thread node : String) (s : State) (update : Update) :
    (g.settle thread node s (.proceed update)).Obeys (fun _ => True)
      fun r => ¬ r.1.IsSuspended := by
  have hsave (s : State) (next : Option String) :
      (g.save thread s next).Obeys (fun _ => True) fun _ => True :=
    obeys_trivial _
  unfold settle
  dsimp only
  split
  · exact id
  · split
    · refine obeys_bind (hsave _ _) ?_
      rintro (e | _) _
      · exact id
      · exact id
    · exact id
  · refine obeys_bind (hsave _ _) ?_
    rintro (e | _) _
    · exact id
    · exact id

theorem enter_obeys_of_unhalting {thread : String} (h : g.Unhalting runner? thread)
    (budget : Option Nat) (s : State) (node : String) (resume : Option Value) :
    (g.enter runner? ⟨thread, g.config⟩ budget s node resume).Obeys (fun _ => True)
      fun r => ¬ r.onward.IsSuspended := by
  apply obeys_iff_meets.2
  apply enter_meets fun onward _ _ => ¬ onward.IsSuspended
  · exact fun _ => id
  · exact fun _ _ _ => id
  · intro runner t hrunner _
    apply carryOut_meets fun onward _ _ => ¬ onward.IsSuspended
    · exact obeys_iff_meets.1 (h node runner hrunner t resume)
    · exact fun _ _ _ => id
    · exact fun _ _ _ _ _ => id
    · intro r outcome _ hr hresult
      cases outcome with
      | suspend suspension => exact (hr.suspends suspension hresult).elim
      | proceed update => exact obeys_iff_meets.1 (settle_proceed_obeys thread node _ update)

/-- A walk over nodes that do not suspend does not either. By induction on its steps. -/
theorem walk_obeys_of_unhalting {thread : String} (h : g.Unhalting runner? thread) (s : State)
    (start : String) (resume : Option Value) :
    (g.walk runner? s start thread resume).Obeys (fun _ => True) fun r => ¬ r.IsSuspended := by
  apply obeys_iff_meets.2
  apply walk_meets
  have hwalk : (g.walkFrom runner? ⟨thread, g.config⟩
      (g.config.workflowTimeout.map Duration.wholeMillis) s start resume
      g.config.maxSteps).Meets (.ofCalls fun _ => True) (fun _ => True)
      (fun r _ => ∀ pending, r.1 ≠ .suspended pending) () := by
    apply walkFrom_meets (fun _ _ _ _ => True)
      fun ending _ _ => ∀ pending, ending ≠ .suspended pending
    · rintro _ _ _ _ _ _ ⟨⟩
    · intro budget s node resume m _
      refine (obeys_iff_meets.1 (enter_obeys_of_unhalting h budget s node resume)).mono
        (fun _ _ => trivial) ?_
      rintro ⟨_, onward, _, _⟩ _ hr
      cases onward with
      | go next => trivial
      | stop ending =>
        rintro pending rfl
        exact hr trivial
    · trivial
  refine hwalk.mono (fun _ _ => trivial) ?_
  rintro ⟨ending, t⟩ _ hr
  cases ending with
  | complete => exact id
  | suspended pending => exact absurd rfl (hr pending)
  | failed e => exact id

theorem runThread_obeys_of_unhalting {thread : String} (hstore : g.store = none)
    (h : g.Unhalting runner? thread) (input : Fields) :
    (g.runThread runner? input thread).Obeys (fun _ => True) fun r => ¬ r.IsSuspended := by
  unfold runThread load
  rw [hstore]
  exact walk_obeys_of_unhalting h _ _ _

theorem resumeThread_obeys_of_storeless {thread : String} (hstore : g.store = none)
    (value : Value) :
    (g.resumeThread runner? thread value).Obeys (fun _ => True) fun r => ¬ r.IsSuspended := by
  unfold resumeThread load
  rw [hstore]
  exact id

end GraphFrame

/-! ## Nodes and graphs -/

/-- A node without interrupts never suspends. By induction on the nodes inside it. -/
theorem GraphNode.Uninterrupted.runner_obeys {node : GraphNode} (h : node.Uninterrupted) (s : State)
    (scope : Scope) (resume : Option Value) :
    (node.runner s scope resume).Obeys (fun _ => True) (NodeRun.Regular fun _ => False) := by
  induction h generalizing s scope resume with
  | @leaf frame action haction =>
    apply NodeFrame.execute_obeys
    intro v _ _ _
    refine (action.behaviour_obeys frame.id v).mono (fun _ _ => trivial) ?_
    intro a ha suspension hsuspended
    obtain ⟨n, message, hn, _⟩ := ha suspension hsuspended
    exact haction n hn
  | map frame spec _ ih =>
    apply NodeFrame.execute_obeys
    intro v _ _ _
    exact MapNode.behaviour_obeys _ _ fun t index =>
      (ih t _ none).mono (fun _ _ => trivial) fun _ _ => trivial
  | @subgraph frame mappings graph nodes hstore _ ih =>
    apply NodeFrame.execute_obeys
    intro v _ _ _
    have hnodes : graph.Unhalting (runnerIn? nodes) (v.scope.childThread frame.id) := by
      intro id runner hrunner t resume
      obtain ⟨node, hmem, rfl⟩ := exists_of_runnerIn? hrunner
      exact ih _ hmem t _ resume
    have houtcome (r : RunResult) (hr : ¬ r.IsSuspended) :
        (Attempt.of (mappings.outcome frame.id graph.name r)).SuspendsOnly fun _ => False := by
      intro suspension hsuspended
      cases r with
      | complete => cases hsuspended
      | suspended pending t => exact hr trivial
      | failed => cases hsuspended
    unfold FieldMappings.behaviour
    dsimp only
    split
    · exact obeys_bind (GraphFrame.resumeThread_obeys_of_storeless hstore _) houtcome
    · refine obeys_bind (obeys_trivial _) ?_
      rintro (e | _) _
      · rintro _ ⟨⟩
      · exact obeys_bind (GraphFrame.runThread_obeys_of_unhalting hstore hnodes _) houtcome

namespace Graph.Uninterrupted

variable {g : Graph}

theorem withConfig (h : g.Uninterrupted) (config : RunConfig) :
    (g.withConfig config).Uninterrupted :=
  ⟨h.store, h.nodes⟩

/-- **A graph without interrupts never suspends**, neither when it is run nor when it is to be
resumed. -/
theorem serves_obeys (h : g.Uninterrupted) {thread : String} {call : Activity RunResult}
    (hcall : g.Serves thread call) :
    call.Obeys (fun _ => True) fun r => ¬ r.IsSuspended := by
  have hnodes : g.frame.Unhalting g.runner? thread := by
    intro id runner hrunner t resume
    obtain ⟨node, hmem, rfl⟩ := GraphNode.exists_of_runnerIn? hrunner
    exact (h.nodes _ hmem).runner_obeys t _ resume
  rcases hcall with ⟨input, rfl⟩ | ⟨value, rfl⟩
  · unfold Graph.run
    split
    · exact GraphFrame.runThread_obeys_of_unhalting h.store hnodes _
    · exact GraphFrame.runThread_obeys_of_unhalting h.store hnodes _
    · exact id
  · exact GraphFrame.resumeThread_obeys_of_storeless h.store value

end Graph.Uninterrupted

end WorkflowGraph
