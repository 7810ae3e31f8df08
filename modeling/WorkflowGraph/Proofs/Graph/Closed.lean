import WorkflowGraph.Proofs.Activity.Course
import WorkflowGraph.Proofs.Compiler.Assemble
import WorkflowGraph.Proofs.Graph.Calls
import WorkflowGraph.Proofs.Graph.Termination

/-!
# Compiled graphs are closed

A compiled graph holds the nodes of its definition and no others, each with a transition, and no
transition leads out of it (`Graph.Closed`). A walk that starts at one of the nodes therefore stays
among them, and what it saves leads back to one of them only. So a thread whose checkpoints the
graph has written never leads to an unknown node, and never to a node without a transition
(`compiled_graph_is_closed`).
-/

set_option autoImplicit false

namespace WorkflowGraph

open Activity

/-! ## Closed graphs -/

/-- Whether a graph holds the nodes of a definition, all reached from the entry, and leads to no
others. -/
structure Graph.Closed (d : Definition) (g : Graph) : Prop where
  ids : g.nodes.map Prod.fst = d.nodeIds
  entry : g.frame.table.entry ∈ d.nodeIds
  transition : ∀ id ∈ d.nodeIds, (g.frame.table.transition? id).isSome
  targets : ∀ id t, g.frame.table.transition? id = some t → ∀ x ∈ t.targets,
    x = .finish ∨ ∃ next ∈ d.nodeIds, x = .node next
  reached : ∀ id ∈ d.nodeIds,
    Relation.ReflTransGen (Reach.Step g.frame.table.successors) g.frame.table.entry id

theorem Compiler.Linked.closed {c : Compiler} {store : Option Store} {stack : SourceStack}
    {d : Definition} {g : Graph} {below : Nat} (hd : d.faults = [])
    (h : Linked c (c.innerAt store below) store stack d g) : g.Closed d := by
  have hmade := TransitionTable.madeOf h.table
  refine ⟨nodeIds_of_linked hd h, hmade.entry_mem hd, ?_, ?_, ?_⟩
  · exact fun id hid => hmade.isSome_transition? hd hid
  · intro id t ht x hx
    have hwithin := hmade.leadsWithin hd ht x hx
    cases x with
    | finish => exact .inl rfl
    | node next => exact .inr ⟨next, hwithin next rfl, rfl⟩
  · exact fun id hid => hmade.reaches hid

namespace Graph.Closed

variable {d : Definition} {g : Graph}

theorem isSome_runner? (h : g.Closed d) {id : String} (hid : id ∈ d.nodeIds) :
    (g.runner? id).isSome := by
  unfold Graph.runner?
  rw [GraphNode.runnerIn?_eq, Option.isSome_map]
  apply GraphNode.isSome_lookup?
  rw [h.ids]
  exact hid

theorem next_mem (h : g.Closed d) {node next : String} {fields : Fields}
    (hnext : g.frame.table.next node fields = .ok (some next)) : next ∈ d.nodeIds := by
  have hsucc := TransitionTable.mem_successors_of_next hnext
  unfold TransitionTable.successors TransitionTable.successorsIn at hsucc
  cases ht : g.frame.table.transitions.get? node with
  | none => simp [ht] at hsucc
  | some t =>
    simp only [ht] at hsucc
    obtain ⟨x, hx, hname⟩ := List.mem_filterMap.1 hsucc
    rcases h.targets node t ht x hx with rfl | ⟨other, hother, rfl⟩
    · cases hname
    · cases hname
      exact hother

end Graph.Closed

/-! ## Errors that a closed graph may end with -/

/-- Whether an error is not one of a graph that leads out of itself: no node is unknown, and
where no transition matches, the node has conditions without a fallback, none of which holds. -/
def TransitionTable.Explains (table : TransitionTable) (e : RunError) (s : State) : Prop :=
  (∀ node, e ≠ .state (.unknownNode node)) ∧
    ∀ node, e = .noMatchingTransition node →
      ∃ branches, table.transition? node = some (.conditional branches none) ∧
        ∀ b ∈ branches, b.1.holds s.values = false

/-- Whether a result is not a failure of a graph that leads out of itself. -/
def RunResult.ExplainedBy (table : TransitionTable) : RunResult → Prop
  | .failed e s => table.Explains e s
  | _ => True

theorem TransitionTable.explains_of_ne {table : TransitionTable} {e : RunError} {s : State}
    (hunknown : ∀ node, e ≠ .state (.unknownNode node))
    (hmatch : ∀ node, e ≠ .noMatchingTransition node) : table.Explains e s :=
  ⟨hunknown, fun node he => absurd he (hmatch node)⟩

theorem Graph.Closed.explains_next {d : Definition} {g : Graph} (h : g.Closed d) {node : String}
    (hnode : node ∈ d.nodeIds) {s : State} {e : RunError}
    (he : g.frame.table.next node s.values = .error e) : g.frame.table.Explains e s := by
  obtain ⟨t, ht⟩ := Option.isSome_iff_exists.1 (h.transition node hnode)
  simp only [TransitionTable.next, ht] at he
  cases hchoose : t.choose node s.values with
  | ok x =>
    rw [hchoose] at he
    cases he
  | error e' =>
    rw [hchoose] at he
    cases he
    rcases Transition.choose_eq_error hchoose with
      ⟨branches, rfl, rfl, hbranches⟩ | ⟨field, routes, value, rfl, rfl⟩
    · refine ⟨by simp, ?_⟩
      rintro _ ⟨⟩
      exact ⟨branches, ht, hbranches⟩
    · exact TransitionTable.explains_of_ne (by simp) (by simp)

/-! ## Walks stay among the nodes -/

/-- Whether a checkpoint leads to nodes among those given only. -/
structure Checkpoint.LeadsWithin (ids : List String) (c : Checkpoint) : Prop where
  next : ∀ node, c.next = some node → node ∈ ids
  pending : ∀ pending, c.state.interrupt = some pending → pending.node ∈ ids

/-- The regime in which a thread is loaded and saved with checkpoints of a kind. -/
def Activity.Regime.ofThread (thread : String) (P : Checkpoint → Prop) : Regime Unit where
  allows _ c := ∀ store checkpoint, c = .save store checkpoint → checkpoint.thread = thread →
    P checkpoint
  answers _ c a _ := ∀ store checkpoint,
    (⟨c, a⟩ : Exchange) = ⟨.load store thread, .ok (some checkpoint)⟩ → P checkpoint
  background _ := True

theorem Activity.Regime.allows_of_inside {thread : String} {P : Checkpoint → Prop} {c : Call}
    (h : c.On fun _ other => True ∧ Thread.Inside thread other) :
    (Regime.ofThread thread P).allows () c := by
  rintro store checkpoint rfl rfl
  exact absurd h.2 (Thread.not_inside_self _)

namespace GraphFrame

variable {frame : GraphFrame} {thread : String} {P : Checkpoint → Prop} {inv : Unit → Prop}

/-- Whether a failure is one of the store. -/
def FailsInStore {α : Type} (r : Except RunError α) : Prop :=
  ∀ e, r = .error e → ∃ cause, e = .checkpoint cause

theorem failsInStore_mapError {α : Type} (r : Except StoreError α) :
    FailsInStore (r.mapError .checkpoint) := by
  cases r with
  | error cause =>
    rintro _ ⟨⟩
    exact ⟨cause, rfl⟩
  | ok a => rintro _ ⟨⟩

theorem load_ofThread (frame : GraphFrame) (thread : String) :
    (frame.load thread).Meets (.ofThread thread P) inv
      (fun r _ => FailsInStore r ∧ ∀ c, r = .ok (some c) → P c) () := by
  unfold load
  cases frame.store with
  | none => exact ⟨by rintro _ ⟨⟩, by rintro _ ⟨⟩⟩
  | some store =>
    have hload : (perform (.load store thread)).Meets (.ofThread thread P) inv
        (fun (a : Except StoreError (Option Checkpoint)) _ => ∀ c, a = .ok (some c) → P c) () := by
      refine ⟨by rintro _ _ ⟨⟩, ?_⟩
      intro a _ ha c hc
      exact ha store c (by rw [hc])
    apply meets_bind hload
    intro a _ ha
    refine ⟨failsInStore_mapError a, fun c hc => ?_⟩
    cases a with
    | error e => cases hc
    | ok found =>
      cases hc
      exact ha c rfl

theorem perform_ofThread {c : Call} (h : ∀ store checkpoint, c ≠ .save store checkpoint) :
    (perform c).Meets (.ofThread thread P) inv (fun _ _ => True) () := by
  apply meets_perform
  · intro store checkpoint hc
    exact absurd hc (h store checkpoint)
  · exact fun _ _ _ => trivial

theorem save_ofThread {s : State} {next : Option String} (h : P (frame.checkpoint thread s next)) :
    (frame.save thread s next).Meets (.ofThread thread P) inv (fun r _ => FailsInStore r) () := by
  unfold save
  cases frame.store with
  | none => rintro _ ⟨⟩
  | some store =>
    have hsave : (perform (.save store (frame.checkpoint thread s next))).Meets
        (.ofThread thread P) inv (fun _ _ => True) () := by
      apply meets_perform
      · rintro _ _ ⟨⟩ _
        exact h
      · exact fun _ _ _ => trivial
    apply meets_bind hsave
    rintro (cause | _) _ _
    · rintro _ ⟨⟩
      exact ⟨cause, rfl⟩
    · dsimp only
      split
      · rintro _ ⟨⟩
      · apply meets_bind (perform_ofThread (by rintro _ _ ⟨⟩))
        exact fun pruned _ _ => failsInStore_mapError _

end GraphFrame

/-! ## Runs of closed graphs -/

namespace Graph.Closed

variable {d : Definition} {g : Graph} {thread : String} {inv : Unit → Prop}

/-- Whether a state waits for nothing, or for a node among those given. -/
def PendsWithin (ids : List String) (s : State) : Prop :=
  ∀ pending, s.interrupt = some pending → pending.node ∈ ids

/-- Whether a walk ends in an explained way. -/
def EndsExplained (table : TransitionTable) : WalkEnd → State → Prop
  | .failed e, s => table.Explains e s
  | _, _ => True

/-- Whether a step ends the walk in an explained way, or goes on at one of the nodes given. -/
def StaysWithin (table : TransitionTable) (ids : List String) :
    GraphFrame.Onward → State → Prop
  | .stop ending, s => EndsExplained table ending s
  | .go next, s => next ∈ ids ∧ PendsWithin ids s

theorem saved_ofThread {s : State} {next : Option String} {onward : GraphFrame.Onward}
    {ids : List String} (hnext : ∀ node, next = some node → node ∈ ids)
    (hs : PendsWithin ids s) (honward : StaysWithin g.frame.table ids onward s) :
    (g.frame.saveThen thread s next onward).Meets
      (.ofThread thread (Checkpoint.LeadsWithin ids)) inv
      (fun r _ => StaysWithin g.frame.table ids r.1 r.2) () := by
  have hleads : (g.frame.checkpoint thread s next).LeadsWithin ids := ⟨hnext, hs⟩
  apply meets_bind (GraphFrame.save_ofThread hleads)
  rintro (e | _) _ hr
  · obtain ⟨cause, rfl⟩ := hr e rfl
    exact TransitionTable.explains_of_ne (by simp) (by simp)
  · exact honward

/-- At a node, an outcome is settled so that the walk goes on at a node or ends explained, and
what is saved leads to nodes. -/
theorem settle_ofThread (h : g.Closed d) {node : String} (hnode : node ∈ d.nodeIds) {s : State}
    (hs : PendsWithin d.nodeIds s) (outcome : NodeOutcome) :
    (g.frame.settle thread node s outcome).Meets
      (.ofThread thread (Checkpoint.LeadsWithin d.nodeIds)) inv
      (fun r _ => StaysWithin g.frame.table d.nodeIds r.1 r.2) () := by
  unfold GraphFrame.settle
  cases outcome with
  | suspend suspension =>
    apply saved_ofThread
    · rintro _ ⟨⟩
      exact hnode
    · rintro _ ⟨⟩
      exact hnode
    · trivial
  | proceed update =>
    dsimp only
    split
    · next e he => exact h.explains_next hnode he
    · next next hnext =>
      have hmem := h.next_mem hnext
      split
      · apply saved_ofThread
        · rintro _ ⟨⟩
          exact hmem
        · exact hs
        · exact ⟨hmem, hs⟩
      · exact ⟨hmem, hs⟩
    · apply saved_ofThread
      · rintro _ ⟨⟩
      · exact hs
      · trivial

/-- The nodes of a graph save nothing on its thread, and fail only in the name of a node. -/
theorem runner_ofThread {P : Checkpoint → Prop} {id : String} {runner : Runner}
    (h : g.runner? id = some runner) (s : State) (scope : Scope) (resume : Option Value) :
    (runner s scope resume).Meets (.ofThread scope.thread P) (fun _ => True)
      (fun r _ => ∀ e, r.result = .error e →
        ∃ node attempts cause, e = .nodeExecution node attempts cause) () := by
  unfold Graph.runner? at h
  rw [GraphNode.runnerIn?_eq, Option.map_eq_some_iff] at h
  obtain ⟨node, _, rfl⟩ := h
  have hobeys := GraphNode.runner_obeys (node.everyGraph_of_forall fun _ _ _ _ => trivial)
    s scope resume
  refine (hobeys.meets (fun _ => True) ?_ ?_ trivial).mono (fun _ _ => trivial) ?_
  · exact fun _ c _ hc => ⟨Regime.allows_of_inside hc, fun _ _ _ => trivial⟩
  · exact fun _ _ => trivial
  · exact fun r _ hr => hr.1.fails

/-- A step from a node of a closed graph stays among the nodes. -/
theorem enter_ofThread (h : g.Closed d) (scope : Scope) (budget : Option Nat) {s : State}
    {node : String} (resume : Option Value) (hnode : node ∈ d.nodeIds)
    (hs : PendsWithin d.nodeIds s) :
    (g.frame.enter g.runner? scope budget s node resume).Meets
      (.ofThread scope.thread (Checkpoint.LeadsWithin d.nodeIds)) (fun _ => True)
      (fun r _ => StaysWithin g.frame.table d.nodeIds r.onward r.state) () := by
  apply GraphFrame.enter_meets fun onward s _ => StaysWithin g.frame.table d.nodeIds onward s
  · intro hnone
    have := h.isSome_runner? hnode
    rw [hnone] at this
    cases this
  · exact fun _ _ _ => TransitionTable.explains_of_ne (by simp) (by simp)
  · intro runner t hrunner hvisit
    have ht : PendsWithin d.nodeIds t := by
      obtain ⟨counters, hcounters⟩ := g.frame.visit_eq s node resume
      rw [hvisit] at hcounters
      dsimp only at hcounters
      rw [hcounters]
      exact hs
    apply GraphFrame.carryOut_meets fun onward s _ => StaysWithin g.frame.table d.nodeIds onward s
    · exact runner_ofThread hrunner t scope resume
    · exact fun _ _ _ => TransitionTable.explains_of_ne (by simp) (by simp)
    · intro r e _ hr he
      obtain ⟨id, attempts, cause, rfl⟩ := hr e he
      exact TransitionTable.explains_of_ne (by simp) (by simp)
    · intro r outcome _ _ _
      apply h.settle_ofThread hnode
      exact ht

/-- A walk from a node of a closed graph ends explained. -/
theorem walk_ofThread (h : g.Closed d) {s : State} {start : String} (resume : Option Value)
    (hstart : start ∈ d.nodeIds) (hs : PendsWithin d.nodeIds s) :
    (g.frame.walk g.runner? s start thread resume).Meets
      (.ofThread thread (Checkpoint.LeadsWithin d.nodeIds)) (fun _ => True)
      (fun r _ => r.ExplainedBy g.frame.table) () := by
  have hwalk : (g.frame.walkFrom g.runner? ⟨thread, g.frame.config⟩
      (g.frame.config.workflowTimeout.map Duration.wholeMillis) s start resume
      g.frame.config.maxSteps).Meets (.ofThread thread (Checkpoint.LeadsWithin d.nodeIds))
      (fun _ => True) (fun r _ => EndsExplained g.frame.table r.1 r.2) () := by
    apply GraphFrame.walkFrom_meets
      (fun s node _ _ => node ∈ d.nodeIds ∧ PendsWithin d.nodeIds s)
      (fun ending s _ => EndsExplained g.frame.table ending s)
    · exact fun _ _ _ _ _ => TransitionTable.explains_of_ne (by simp) (by simp)
    · rintro budget s node resume _ ⟨hnode, hs⟩
      refine (h.enter_ofThread ⟨thread, g.frame.config⟩ budget resume hnode hs).mono
        (fun _ hk => hk) ?_
      rintro ⟨_, onward, t, _⟩ _ hr
      cases onward with
      | stop ending => exact hr
      | go next => exact hr
    · exact ⟨hstart, hs⟩
  apply GraphFrame.walk_meets
  refine hwalk.mono (fun _ hk => hk) ?_
  rintro ⟨ending, t⟩ _ hr
  cases ending with
  | complete => trivial
  | suspended pending => trivial
  | failed e => exact hr

theorem explains_of_failsInStore {table : TransitionTable} {e : RunError} {s : State}
    (h : GraphFrame.FailsInStore (.error e : Except RunError (Option Checkpoint))) :
    table.Explains e s := by
  obtain ⟨cause, rfl⟩ := h e rfl
  exact TransitionTable.explains_of_ne (by simp) (by simp)

/-- A run of a closed graph on a thread whose checkpoints lead to its nodes ends explained. -/
theorem runThread_ofThread (h : g.Closed d) (input : Fields) :
    (g.frame.runThread g.runner? input thread).Meets
      (.ofThread thread (Checkpoint.LeadsWithin d.nodeIds)) (fun _ => True)
      (fun r _ => r.ExplainedBy g.frame.table) () := by
  unfold GraphFrame.runThread
  apply meets_bind (GraphFrame.load_ofThread g.frame thread)
  rintro (e | _ | c) _ ⟨hstore, hleads⟩
  · exact explains_of_failsInStore hstore
  · exact h.walk_ofThread none h.entry (by rintro _ ⟨⟩)
  · have hc := hleads c rfl
    dsimp only
    cases hpending : c.state.interrupt with
    | some pending =>
      dsimp only
      split
      · trivial
      · exact h.walk_ofThread _ (hc.pending pending hpending) (by rintro _ ⟨⟩)
    | none =>
      have hmerged : PendsWithin d.nodeIds (c.state.mergeInput input) := by
        intro pending hsome
        rw [show (c.state.mergeInput input).interrupt = c.state.interrupt from rfl, hpending]
          at hsome
        cases hsome
      dsimp only
      split
      · next node hnext => exact h.walk_ofThread none (hc.next node hnext) hmerged
      · exact h.walk_ofThread none h.entry hmerged

theorem resumeThread_ofThread (h : g.Closed d) (value : Value) :
    (g.frame.resumeThread g.runner? thread value).Meets
      (.ofThread thread (Checkpoint.LeadsWithin d.nodeIds)) (fun _ => True)
      (fun r _ => r.ExplainedBy g.frame.table) () := by
  unfold GraphFrame.resumeThread
  apply meets_bind (GraphFrame.load_ofThread g.frame thread)
  rintro (e | _ | c) _ ⟨hstore, hleads⟩
  · exact explains_of_failsInStore hstore
  · exact TransitionTable.explains_of_ne (by simp) (by simp)
  · dsimp only
    cases hpending : c.state.interrupt with
    | none => exact TransitionTable.explains_of_ne (by simp) (by simp)
    | some pending =>
      exact h.walk_ofThread _ ((hleads c rfl).pending pending hpending) (by rintro _ ⟨⟩)

theorem withConfig (h : g.Closed d) (config : RunConfig) : (g.withConfig config).Closed d :=
  ⟨h.ids, h.entry, h.transition, h.targets, h.reached⟩

end Graph.Closed

/-! ## Threads that the graph itself has written -/

/-- Whether an activity is a run of a graph on a thread, or resumes one. -/
def Graph.Serves (g : Graph) (thread : String) (call : Activity RunResult) : Prop :=
  (∃ input, call = g.run input thread) ∨ ∃ value, call = g.resume thread value

/-- Whether a graph can have written a checkpoint of a thread: in the course of a call that has
loaded nothing else from the thread than what the graph can have written before. -/
inductive Graph.Wrote (g : Graph) (thread : String) : Checkpoint → Prop where
  | saved {call : Activity RunResult} {es : List Exchange} {r : RunResult} {store : Store}
    {c : Checkpoint} {done : Except StoreError Unit} (hcall : g.Serves thread call)
    (hcourse : Course call es r)
    (hloads : ∀ store c, (⟨.load store thread, .ok (some c)⟩ : Exchange) ∈ es →
      g.Wrote thread c)
    (hsaved : (⟨.save store c, done⟩ : Exchange) ∈ es) (hthread : c.thread = thread) :
    g.Wrote thread c

namespace Graph.Closed

variable {d : Definition} {g : Graph} {thread : String}

theorem serves_ofThread (h : g.Closed d) {call : Activity RunResult}
    (hcall : g.Serves thread call) :
    call.Meets (.ofThread thread (Checkpoint.LeadsWithin d.nodeIds)) (fun _ => True)
      (fun r _ => r.ExplainedBy g.frame.table) () := by
  rcases hcall with ⟨input, rfl⟩ | ⟨value, rfl⟩
  · unfold Graph.run
    split
    · exact h.runThread_ofThread _
    · exact h.runThread_ofThread _
    · exact TransitionTable.explains_of_ne (by simp) (by simp)
  · exact h.resumeThread_ofThread value

theorem answers_of_loads {P : Checkpoint → Prop} {es : List Exchange}
    (h : ∀ store c, (⟨.load store thread, .ok (some c)⟩ : Exchange) ∈ es → P c) :
    ∀ e ∈ es, (Regime.ofThread thread P).answers () e.1 e.2 () := by
  intro e he store c heq
  apply h store c
  rw [← heq]
  exact he

/-- What a closed graph can have written leads to its nodes. By induction on how it has been
written: the calls before have loaded only what leads to nodes. -/
theorem leadsWithin_of_wrote (h : g.Closed d) {c : Checkpoint} (hc : g.Wrote thread c) :
    c.LeadsWithin d.nodeIds := by
  induction hc with
  | saved hcall hcourse _ hsaved hthread ih =>
    have hallowed := ((h.serves_ofThread hcall).course hcourse (answers_of_loads ih)).2
    exact hallowed _ hsaved _ _ rfl hthread

theorem explained_of_wrote (h : g.Closed d) {call : Activity RunResult} {es : List Exchange}
    {r : RunResult} (hcall : g.Serves thread call) (hcourse : Course call es r)
    (hloads : ∀ store c, (⟨.load store thread, .ok (some c)⟩ : Exchange) ∈ es →
      g.Wrote thread c) : r.ExplainedBy g.frame.table := by
  have hleads := answers_of_loads fun store c hc => h.leadsWithin_of_wrote (hloads store c hc)
  exact ((h.serves_ofThread hcall).course hcourse hleads).1

end Graph.Closed

/-- **Compiled graphs are closed.** A definition that is not assembled has at least one error. A
graph that is assembled from a definition holds its nodes, leads nowhere else, and reaches them
all. On a thread whose checkpoints the graph itself has written, whatever else the calls of a run
or of a resumed run are answered, the run never fails at an unknown node, and never for want of a
transition unless no condition of a node without a fallback holds. -/
theorem compiled_graph_is_closed (c : Compiler) (store : Option Store) (depth : Nat)
    (stack : SourceStack) (d : Definition) :
    (∀ errors, c.assemble store depth stack d = .error errors → errors ≠ []) ∧
    ∀ g, c.assemble store depth stack d = .ok g → g.Closed d ∧
      ∀ (config : RunConfig) (thread : String) (call : Activity RunResult) (es : List Exchange)
        (r : RunResult), (g.withConfig config).Serves thread call → Course call es r →
        (∀ store c, (⟨.load store thread, .ok (some c)⟩ : Exchange) ∈ es →
          (g.withConfig config).Wrote thread c) →
        r.ExplainedBy g.frame.table := by
  refine ⟨fun errors h => Compiler.assemble_errors h, fun g h => ?_⟩
  obtain ⟨hd, below, _, hlinked⟩ := Compiler.linked_of_assemble h
  have hclosed := hlinked.closed hd
  refine ⟨hclosed, fun config thread call es r hcall hcourse hloads => ?_⟩
  exact (hclosed.withConfig config).explained_of_wrote hcall hcourse hloads

/-- The graph that the loop of a single node is compiled to. -/
def tickGraph : Graph where
  frame := tickFrame
  nodes := [("tick", .leaf ⟨"tick", none, ⟨.fail, none, none, [], []⟩⟩ (.passthrough ⟨[], [], []⟩))]

/-- The compiled loop is closed, and a run of it ends explained. -/
theorem tickGraph_is_closed :
    bareCompiler.assemble none 1 .empty tickLoop = .ok tickGraph ∧ tickGraph.Closed tickLoop ∧
      ∃ r, Course (tickGraph.run .null "t") [] r ∧ r.ExplainedBy tickFrame.table := by
  have hgraph : bareCompiler.assemble none 1 .empty tickLoop = .ok tickGraph := rfl
  have hcourse : ∃ r, Course (tickGraph.run .null "t") [] r := ⟨_, .done _⟩
  obtain ⟨hclosed, hends⟩ :=
    (compiled_graph_is_closed bareCompiler none 1 .empty tickLoop).2 tickGraph hgraph
  obtain ⟨r, hr⟩ := hcourse
  refine ⟨hgraph, hclosed, r, hr, ?_⟩
  apply hends .standard "t" (tickGraph.run .null "t") [] r (.inl ⟨.null, rfl⟩) hr
  simp

end WorkflowGraph
