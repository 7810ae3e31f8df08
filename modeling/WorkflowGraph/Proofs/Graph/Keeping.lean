import WorkflowGraph.Proofs.Compiler.Wiring
import WorkflowGraph.Proofs.Graph.Suspension
import WorkflowGraph.Proofs.Graph.Walk

/-!
# What a run leaves on its threads

A run on a working store leaves every thread as it was, or waiting for nothing, at every moment and
whether it ends complete or with an error (`Latest.Quiet`). Only where it suspends, its thread and
those below it wait, and then all the way down to an interrupt (`RunResult.Leaves`). A walk saves a
suspended state only as the last thing that it does, and its nodes touch threads below its own
only; the rest is an induction on the graphs inside the nodes (`GraphNode.runner_keeping`).

A run of a graph has a thread of its own and one for each of its subgraphs, at any depth
(`GraphNode.Threads`). The tasks of its maps have threads with the index of an item in brackets,
and may go on in the background. Nothing can be said of a thread that is both. A graph is apart
where no thread is (`Graph.Apart`), and so it is where no subgraph has a bracket in its id
(`Graph.apart_of_unbracketed`).
-/

set_option autoImplicit false

namespace WorkflowGraph

namespace GraphNode

/-- The threads that a run of a graph on a thread has, other than those of tasks of maps. -/
inductive Threads : List (String × GraphNode) → String → String → Prop where
  | here (nodes : List (String × GraphNode)) (thread : String) : Threads nodes thread thread
  | further {nodes : List (String × GraphNode)} {thread id other : String} {frame : NodeFrame}
    {mappings : FieldMappings} {graph : GraphFrame} {inside : List (String × GraphNode)}
    (hmem : (id, .subgraph frame mappings graph inside) ∈ nodes)
    (h : Threads inside (thread ++ "/" ++ frame.id) other) : Threads nodes thread other

/-- Whether the subgraphs inside a node are on the watched threads, and the tasks of its maps and
all that is below them are not. -/
inductive Apart (watched : String → Prop) : String → GraphNode → Prop where
  | leaf (thread : String) (frame : NodeFrame) (action : Action) :
    Apart watched thread (.leaf frame action)
  | map {thread : String} {frame : NodeFrame} (spec : MapSpec) (inner : GraphNode)
    (htasks : ∀ scope index other, scope.thread = thread →
      Thread.Inside (MapNode.taskScope frame.id scope index).thread other → ¬ watched other) :
    Apart watched thread (.map frame spec inner)
  | subgraph {thread : String} {frame : NodeFrame} (mappings : FieldMappings) (graph : GraphFrame)
    {nodes : List (String × GraphNode)} (here : watched (thread ++ "/" ++ frame.id))
    (inside : ∀ p ∈ nodes, Apart watched (thread ++ "/" ++ frame.id) p.2) :
    Apart watched thread (.subgraph frame mappings graph nodes)

/-- Whether a subgraph has no bracket in its id. -/
def Unbracketed : GraphNode → Prop
  | .subgraph frame _ _ _ => '[' ∉ frame.id.toList
  | _ => True

end GraphNode

namespace Graph

/-- Whether no thread of the runs of a graph on a thread is one of a task of a map, or below it. -/
def Apart (g : Graph) (thread : String) : Prop :=
  ∀ p ∈ g.nodes, p.2.Apart (GraphNode.Threads g.nodes thread) thread

/-- Whether no subgraph has a bracket in its id, at any depth. -/
def Unbracketed (g : Graph) : Prop :=
  g.Everywhere fun _ nodes => ∀ p ∈ nodes, p.2.Unbracketed

end Graph

namespace GraphNode

variable {root thread other : String} {nodes : List (String × GraphNode)}

/-- The threads of a graph without brackets have none. By induction on the way to the thread. -/
theorem Threads.direct (h : Threads nodes thread other)
    (hfree : ∀ p ∈ nodes, p.2.Unbracketed)
    (hinside : ∀ p ∈ nodes, p.2.EveryGraph fun _ nodes => ∀ p ∈ nodes, p.2.Unbracketed)
    (hthread : Thread.Direct root thread) : Thread.Direct root other := by
  induction h with
  | here nodes thread => exact hthread
  | further hmem _ ih =>
    have hid : '[' ∉ _ := hfree _ hmem
    cases hinside _ hmem with
    | subgraph _ _ here inside => exact ih here inside (hthread.child hid)

/-- By induction on the graphs inside the node. -/
theorem apart_of_direct {watched : String → Prop} {node : GraphNode}
    (h : node.EveryGraph fun _ nodes => ∀ p ∈ nodes, p.2.Unbracketed) (hfree : node.Unbracketed)
    (hthread : Thread.Direct root thread) (hdirect : ∀ u, watched u → Thread.Direct root u)
    (hwatched : ∀ frame mappings graph inside, node = .subgraph frame mappings graph inside →
      ∀ u, Threads inside (thread ++ "/" ++ frame.id) u → watched u) :
    node.Apart watched thread := by
  induction h generalizing thread with
  | leaf frame action => exact .leaf thread frame action
  | @map frame spec inner _ _ =>
    refine .map spec inner ?_
    rintro scope index other rfl hinside hother
    exact Thread.not_direct_of_inside_task hthread hinside (hdirect other hother)
  | @subgraph frame mappings graph nodes here _ ih =>
    have hbelow := hwatched frame mappings graph nodes rfl
    refine .subgraph mappings graph (hbelow _ (.here _ _)) fun p hp => ?_
    apply ih p hp (here p hp) (hthread.child hfree)
    intro frame' mappings' graph' inside' hnode u hu
    have hmem : (p.1, GraphNode.subgraph frame' mappings' graph' inside') ∈ nodes := by
      rw [← hnode]
      exact hp
    exact hbelow u (.further hmem hu)

end GraphNode

/-- A graph without brackets in the ids of its subgraphs is apart on every thread. -/
theorem Graph.apart_of_unbracketed {g : Graph} (h : g.Unbracketed) (thread : String) :
    g.Apart thread := by
  have hself := Thread.direct_self thread
  intro p hp
  apply GraphNode.apart_of_direct (h.inside p hp) (h.here p hp) hself
  · exact fun u hu => hu.direct h.here h.inside hself
  · intro frame mappings graph inside hnode u hu
    have hmem : (p.1, GraphNode.subgraph frame mappings graph inside) ∈ g.nodes := by
      rw [← hnode]
      exact hp
    exact .further hmem hu

/-- Whether a graph is wired to a store and stands on a watched thread, apart from all tasks. -/
structure Graph.Placed (store : Store) (watched : String → Prop) (thread : String) (g : Graph) :
    Prop where
  wired : g.Everywhere (GraphNode.Wired (some store))
  apart : ∀ p ∈ g.nodes, p.2.Apart watched thread
  here : watched thread

namespace GraphNode

variable {store : Store} {watched : String → Prop} {thread id : String} {g graph : GraphFrame}
  {nodes inside : List (String × GraphNode)} {frame : NodeFrame} {mappings : FieldMappings}

/-- What holds in a graph everywhere holds in a subgraph everywhere. -/
theorem everywhere_of_lookup? {P : GraphFrame → List (String × GraphNode) → Prop}
    (hg : Graph.Everywhere P ⟨g, nodes⟩)
    (hnode : lookup? nodes id = some (.subgraph frame mappings graph inside)) :
    Graph.Everywhere P ⟨graph, inside⟩ := by
  cases hg.inside _ (mem_of_lookup? hnode) with
  | subgraph _ _ here inside => exact ⟨here, inside⟩

/-- The subgraphs of a graph that is placed are placed. -/
theorem placed_of_lookup? (hg : Graph.Placed store watched thread ⟨g, nodes⟩)
    (hnode : lookup? nodes id = some (.subgraph frame mappings graph inside)) :
    Graph.Placed store watched (thread ++ "/" ++ id) ⟨graph, inside⟩ := by
  have hmem := mem_of_lookup? hnode
  have hid : frame.id = id := hg.wired.here.ids _ _ hmem
  subst hid
  cases hg.apart _ hmem with
  | subgraph _ _ here apart => exact ⟨everywhere_of_lookup? hg.wired hnode, apart, here⟩

end GraphNode

open Activity

/-- What holds of the checkpoints all through a run that has started with others. -/
structure Latest.Quiet (m k : Latest) : Prop where
  sound : k.Sound
  calmer : m.Calmer k

theorem Latest.Sound.quiet {m : Latest} (h : m.Sound) : m.Quiet m := ⟨h, .refl m⟩

theorem Latest.Quiet.trans {m k l : Latest} (h : m.Quiet k) (h' : k.Quiet l) : m.Quiet l :=
  ⟨h'.sound, h.calmer.trans h'.calmer⟩

/-! ## Calls on the thread of a graph -/

namespace GraphFrame

variable {store : Store} {watched : String → Prop} {inv : Latest → Prop} {g : GraphFrame}
  {thread : String} {m : Latest}

theorem load_keeping (hstore : g.store = some store) (hthread : watched thread) :
    (g.load thread).Meets (.keeping store watched) inv
      (fun r k => r = .ok (m thread) ∧ k = m) m := by
  unfold load
  rw [hstore]
  have hwatched : (Call.load store thread).Watched store watched := ⟨rfl, hthread⟩
  have hload : (perform (.load store thread)).Meets (.keeping store watched) inv
      (fun (a : Except StoreError (Option Checkpoint)) k => a = .ok (m thread) ∧ k = m) m :=
    hwatched.meets trivial
  apply meets_bind hload
  rintro _ _ ⟨rfl, rfl⟩
  exact ⟨rfl, rfl⟩

theorem reset_keeping (hstore : g.store = some store) (hthread : watched thread) :
    (g.reset thread).Meets (.keeping store watched) inv
      (fun r k => r = .ok () ∧ k = Function.update m thread none) m := by
  unfold reset
  rw [hstore]
  have hwatched : (Call.delete store thread).Watched store watched := ⟨rfl, hthread⟩
  have hdelete : (perform (.delete store thread)).Meets (.keeping store watched) inv
      (fun (a : Except StoreError Unit) k => a = .ok () ∧ k = Function.update m thread none) m :=
    hwatched.meets trivial
  apply meets_bind hdelete
  rintro _ _ ⟨rfl, rfl⟩
  exact ⟨rfl, rfl⟩

/-- What is saved is the latest checkpoint, if its step does not fall behind. -/
theorem save_keeping (hstore : g.store = some store) (hthread : watched thread) {s : State}
    {next : Option String} (hsteps : ∀ old, m thread = some old → old.step ≤ s.step) :
    (g.save thread s next).Meets (.keeping store watched) inv
      (fun r k => r = .ok () ∧
        k = Function.update m thread (some (g.checkpoint thread s next))) m := by
  unfold save
  rw [hstore]
  have hwatched : (Call.save store (g.checkpoint thread s next)).Watched store watched :=
    ⟨rfl, hthread⟩
  have hsave : (perform (.save store (g.checkpoint thread s next))).Meets
      (.keeping store watched) inv
      (fun (a : Except StoreError Unit) k => a = .ok () ∧
        k = Function.update m thread (some (g.checkpoint thread s next))) m :=
    hwatched.meets hsteps
  apply meets_bind hsave
  rintro _ k ⟨rfl, hk⟩
  dsimp only
  split
  · exact ⟨rfl, hk⟩
  · next keep _ =>
    have hprune : (Call.prune store thread (max keep 1)).Watched store watched :=
      ⟨⟨rfl, hthread⟩, Nat.le_max_right keep 1⟩
    have hpruned : (perform (.prune store thread (max keep 1))).Meets (.keeping store watched) inv
        (fun (a : Except StoreError Nat) l => (∃ gone, a = .ok gone) ∧ l = k) k :=
      hprune.meets trivial
    apply meets_bind hpruned
    rintro _ _ ⟨⟨gone, rfl⟩, rfl⟩
    exact ⟨rfl, hk⟩

end GraphFrame

/-! ## What a node leaves -/

/-- What a node that has suspended leaves below the thread of its graph. -/
def GraphNode.LeavesBelow (thread : String) (k : Latest) : GraphNode → Suspension → Prop
  | .leaf _ (.interrupt n), s => s.nested = false ∧ s.resumeKey = n.resumeKey
  | .subgraph frame _ graph nodes, s => s.nested = true ∧
      ∃ pending, Awaits k graph nodes (thread ++ "/" ++ frame.id) pending ∧
        pending.resumeKey = s.resumeKey ∧ pending.payload = s.payload
  | _, _ => False

/-- What a run leaves on the threads of a graph. -/
def RunResult.Leaves (m : Latest) (g : GraphFrame) (nodes : List (String × GraphNode))
    (thread : String) : RunResult → Latest → Prop
  | .complete _, k => m.Quiet k ∧ k.pending? thread = none
  | .suspended pending _, k => k.Sound ∧ GraphNode.Awaits k g nodes thread pending
  | .failed _ _, k => m.Quiet k

/-- Whether a run has only said again what its thread waits for. -/
def RunResult.Reports (m : Latest) (thread : String) (r : RunResult) (k : Latest) : Prop :=
  ∃ pending s, r = .suspended pending s ∧ m.pending? thread = some pending ∧ k = m

/-- The execution of a node of a graph on a thread, under the regime of a working store. -/
def GraphNode.RunnerKeeps (store : Store) (watched : String → Prop) (thread : String)
    (node : GraphNode) : Prop :=
  ∀ (s : State) (scope : Scope) (resume : Option Value), scope.thread = thread →
    ∀ m : Latest, m.Sound →
      (node.runner s scope resume).Meets (.keeping store watched) m.Quiet
        (fun r k => NodeFrame.Ends m.Quiet
          (fun s k => k.Sound ∧ node.LeavesBelow thread k s) r.result k) m

theorem Call.On.effect_eq {store : Store} {P : Store → Prop} {thread : String} {m k : Latest}
    {c : Call} {a : c.Answer} {watched : String → Prop}
    (hc : c.On fun other below => P other ∧ Thread.Inside thread below)
    (h : (Regime.keeping store watched).answers m c a k) : k thread = m thread := by
  have hne : ∀ below, Thread.Inside thread below → thread ≠ below := by
    rintro below hbelow rfl
    exact Thread.not_inside_self thread hbelow
  rcases h with ⟨_, rfl⟩ | ⟨_, _, rfl⟩
  · rfl
  · cases c with
    | save other c => exact Function.update_of_ne (hne _ hc.2) _ _
    | delete other below => exact Function.update_of_ne (hne _ hc.2) _ _
    | task | tool | load | prune => rfl

/-! ## Walks -/

namespace GraphFrame

variable {store : Store} {watched : String → Prop} {g : GraphFrame}
  {nodes : List (String × GraphNode)} {thread : String} {m : Latest}

/-- What a walk keeps between two steps: its state waits for nothing and does not fall behind. -/
structure Underway (m : Latest) (thread : String) (s : State) (k : Latest) : Prop where
  quiet : m.Quiet k
  waits : s.interrupt = none
  steps : ∀ old, k thread = some old → old.step ≤ s.step

/-- What a walk leaves at its end. -/
def LeavesAtEnd (m : Latest) (g : GraphFrame) (nodes : List (String × GraphNode))
    (thread : String) : WalkEnd → Latest → Prop
  | .complete, k => m.Quiet k ∧ k.pending? thread = none
  | .suspended pending, k => k.Sound ∧ GraphNode.Awaits k g nodes thread pending
  | .failed _, k => m.Quiet k

/-- What a step of a walk leaves. -/
def LeavesOnward (m : Latest) (g : GraphFrame) (nodes : List (String × GraphNode))
    (thread : String) : Onward → State → Latest → Prop
  | .stop ending, _, k => LeavesAtEnd m g nodes thread ending k
  | .go _, s, k => Underway m thread s k

theorem Underway.save {k : Latest} {s : State} (h : Underway m thread s k) (next : Option String) :
    Underway m thread s (Function.update k thread (some (g.checkpoint thread s next))) ∧
      Latest.pending? (Function.update k thread (some (g.checkpoint thread s next))) thread =
        none := by
  have hsound : Latest.Sound (Function.update k thread (some (g.checkpoint thread s next))) := by
    apply h.quiet.sound.update
    rintro _ ⟨⟩
    rfl
  have hcalmer : k.Calmer (Function.update k thread (some (g.checkpoint thread s next))) := by
    apply Latest.Calmer.update
    rintro _ ⟨⟩
    exact h.waits
  refine ⟨⟨⟨hsound, h.quiet.calmer.trans hcalmer⟩, h.waits, ?_⟩, ?_⟩
  · intro old hold
    rw [Function.update_self] at hold
    cases hold
    exact Nat.le_refl _
  · rw [Latest.pending?_update_self]
    exact h.waits

/-- A thread that is saved as suspended, when its node has left the threads below in place, waits
down to an interrupt. -/
theorem awaits_of_leavesBelow {id : String} {node : GraphNode} {s : Suspension} {k : Latest}
    {c : Checkpoint} (hnode : GraphNode.lookup? nodes id = some node) (hid : node.frame.id = id)
    (hmax : 0 < g.config.maxSteps) (hbelow : node.LeavesBelow thread k s)
    (hc : c.state.interrupt = some (pendingAt id s)) :
    GraphNode.Awaits (Function.update k thread (some c)) g nodes thread (pendingAt id s) := by
  obtain ⟨update, payload, key, nested⟩ := s
  have hpending : Latest.pending? (Function.update k thread (some c)) thread =
      some ⟨id, key, payload, nested⟩ := by
    rw [Latest.pending?_update_self]
    exact hc
  cases node with
  | map frame spec inner => exact hbelow.elim
  | leaf frame action =>
    cases action with
    | interrupt n =>
      obtain ⟨rfl, rfl⟩ := hbelow
      exact .interrupt hpending hmax hnode
    | transform | router | agent | passthrough => exact hbelow.elim
  | subgraph frame mappings graph inside =>
    obtain ⟨rfl, inner, hawaits, rfl, rfl⟩ := hbelow
    have hframe : frame.id = id := hid
    subst hframe
    refine .subgraph hpending hmax hnode (hawaits.congr ?_)
    intro other hother
    apply Function.update_of_ne
    rintro rfl
    -- The thread itself is not among those below it.
    have hchild : Thread.Inside other (other ++ "/" ++ frame.id) := ⟨_, rfl⟩
    rcases hother.eq_or_inside with heq | hinside
    · rw [← heq] at hchild
      exact Thread.not_inside_self other hchild
    · exact Thread.not_inside_self other (hchild.trans hinside)

variable (hg : GraphNode.Wired (some store) g nodes) (hthread : watched thread)

include hg hthread

theorem settle_suspend_keeping {id : String} {node : GraphNode} {s : State} {k : Latest}
    {suspension : Suspension} (hnode : GraphNode.lookup? nodes id = some node)
    (hmax : 0 < g.config.maxSteps) (hk : k.Sound)
    (hsteps : ∀ old, k thread = some old → old.step ≤ s.step)
    (hbelow : node.LeavesBelow thread k suspension) :
    (g.settle thread id s (.suspend suspension)).Meets (.keeping store watched)
      m.Quiet (fun r k => LeavesOnward m g nodes thread r.1 r.2 k) k := by
  unfold settle
  dsimp only
  refine meets_bind (save_keeping hg.store hthread (by exact hsteps)) ?_
  rintro _ _ ⟨rfl, rfl⟩
  have hid := hg.ids id node (GraphNode.mem_of_lookup? hnode)
  refine ⟨hk.update ?_, awaits_of_leavesBelow hnode hid hmax hbelow rfl⟩
  rintro _ ⟨⟩
  rfl

theorem settle_proceed_keeping {id : String} {s : State} {k : Latest} {update : Update}
    (hk : Underway m thread s k) :
    (g.settle thread id s (.proceed update)).Meets (.keeping store watched)
      m.Quiet (fun r k => LeavesOnward m g nodes thread r.1 r.2 k) k := by
  have happly : Underway m thread (s.apply g.shape update) k := ⟨hk.quiet, hk.waits, hk.steps⟩
  unfold settle
  dsimp only
  split
  · exact hk.quiet
  · next next _ =>
    split
    · apply meets_bind (save_keeping hg.store hthread happly.steps)
      rintro _ _ ⟨rfl, rfl⟩
      exact (happly.save (some next)).1
    · exact happly
  · apply meets_bind (save_keeping hg.store hthread happly.steps)
    rintro _ _ ⟨rfl, rfl⟩
    obtain ⟨hunderway, hnone⟩ := happly.save (g := g) none
    exact ⟨hunderway.quiet, hnone⟩

/-- Nodes of a graph that keep to the threads below do so in a step. What a node does is framed
by the checkpoint of the thread itself, which no node touches. -/
theorem enter_keeping (hruns : ∀ p ∈ nodes, p.2.RunnerKeeps store watched thread)
    (hinside : ∀ p ∈ nodes, p.2.EveryGraph (GraphNode.StoredIn (· = store)))
    (hmax : 0 < g.config.maxSteps) {config : RunConfig} {budget : Option Nat} {s : State}
    {id : String} {resume : Option Value} {k : Latest} (hk : Underway m thread s k) :
    (g.enter (GraphNode.runnerIn? nodes) ⟨thread, config⟩ budget s id resume).Meets
      (.keeping store watched) m.Quiet
      (fun r k => LeavesOnward m g nodes thread r.onward r.state k) k := by
  apply enter_meets fun onward s k => LeavesOnward m g nodes thread onward s k
  · exact fun _ => hk.quiet
  · exact fun _ _ _ => hk.quiet
  · intro runner t hrunner hvisit
    have ht : Underway m thread t k := by
      obtain ⟨counters, hcounters⟩ := g.visit_eq s id resume
      rw [hvisit] at hcounters
      dsimp only at hcounters
      rw [hcounters]
      exact ⟨hk.quiet, hk.waits, hk.steps⟩
    rw [GraphNode.runnerIn?_eq, Option.map_eq_some_iff] at hrunner
    obtain ⟨node, hnode, rfl⟩ := hrunner
    have hmem := GraphNode.mem_of_lookup? hnode
    have hmeets := hruns _ hmem t ⟨thread, config⟩ resume rfl k hk.quiet.sound
    have hcalls := GraphNode.runner_obeys (hinside _ hmem) t ⟨thread, config⟩ resume
    have hframed : (node.runner t ⟨thread, config⟩ resume).Meets
        (.keeping store watched) (fun l => k.Quiet l ∧ l thread = k thread)
        (fun r l => NodeFrame.Ends k.Quiet
          (fun s l => l.Sound ∧ node.LeavesBelow thread l s) r.result l ∧
            l thread = k thread) k := by
      apply hmeets.frame (fun k l => l thread = k thread) hcalls rfl
      exact fun n c a l hn hc hl => (hc.effect_eq hl).trans hn
    apply carryOut_meets fun onward s k => LeavesOnward m g nodes thread onward s k
    · exact hframed.mono (fun l hl => hk.quiet.trans hl.1) fun _ _ hr => hr
    · exact fun l hl _ => hl
    · rintro r e l ⟨hends, _⟩ he
      rw [he] at hends
      exact hk.quiet.trans hends
    · rintro r outcome l ⟨hends, hstill⟩ houtcome
      rw [houtcome] at hends
      have hsteps : ∀ old, l thread = some old → old.step ≤ (afterRun t r).step := by
        intro old hold
        rw [hstill] at hold
        exact Nat.le_succ_of_le (ht.steps old hold)
      cases outcome with
      | suspend suspension =>
        exact settle_suspend_keeping hg hthread hnode hmax hends.1 hsteps hends.2
      | proceed update =>
        exact settle_proceed_keeping hg hthread ⟨hk.quiet.trans hends, ht.waits, hsteps⟩

variable (hruns : ∀ p ∈ nodes, p.2.RunnerKeeps store watched thread)
  (hinside : ∀ p ∈ nodes, p.2.EveryGraph (GraphNode.StoredIn (· = store)))

include hruns hinside

/-- A walk in a state that waits for nothing leaves its threads as it should. A graph that may not
take any step fails at once. -/
theorem walk_keeping {s : State} {start : String} {resume : Option Value} {k : Latest}
    (hk : Underway m thread s k) :
    (g.walk (GraphNode.runnerIn? nodes) s start thread resume).Meets
      (.keeping store watched) m.Quiet (fun r k => r.Leaves m g nodes thread k) k := by
  apply walk_meets
  have hwalk : (g.walkFrom (GraphNode.runnerIn? nodes) ⟨thread, g.config⟩
      (g.config.workflowTimeout.map Duration.wholeMillis) s start resume g.config.maxSteps).Meets
      (.keeping store watched) m.Quiet
      (fun r k => LeavesAtEnd m g nodes thread r.1 k) k := by
    rcases Nat.eq_zero_or_pos g.config.maxSteps with hzero | hmax
    · rw [hzero]
      exact hk.quiet
    · apply walkFrom_meets (fun s _ _ k => Underway m thread s k)
        (fun ending _ k => LeavesAtEnd m g nodes thread ending k)
      · exact fun _ _ _ _ hk => hk.quiet
      · intro budget s node resume k hk
        refine (enter_keeping hg hthread hruns hinside hmax hk).mono (fun _ hl => hl) ?_
        rintro ⟨_, onward, t, _⟩ l hl
        cases onward with
        | stop ending => exact hl
        | go next => exact hl
      · exact hk
  refine hwalk.mono (fun _ hl => hl) ?_
  rintro ⟨ending, t⟩ l hl
  cases ending with
  | complete => exact hl
  | suspended pending => exact hl
  | failed e => exact hl

/-- A run leaves its threads as it should, unless it only says again what its thread waits for. -/
theorem runThread_keeping (hm : m.Sound) (input : Fields) :
    (g.runThread (GraphNode.runnerIn? nodes) input thread).Meets
      (.keeping store watched) m.Quiet
      (fun r k => r.Leaves m g nodes thread k ∨ r.Reports m thread k) m := by
  unfold runThread
  apply meets_bind (load_keeping hg.store hthread)
  rintro _ _ ⟨rfl, rfl⟩
  rename_i m
  have hwalk (s : State) (start : String) (resume : Option Value) (hs : s.interrupt = none)
      (hsteps : ∀ c, m thread = some c → c.state.step ≤ s.step) :
      (g.walk (GraphNode.runnerIn? nodes) s start thread resume).Meets
        (.keeping store watched) m.Quiet
        (fun r k => r.Leaves m g nodes thread k ∨ r.Reports m thread k) m := by
    have hunderway : Underway m thread s m := by
      refine ⟨hm.quiet, hs, fun old hold => ?_⟩
      rw [hm thread old hold]
      exact hsteps old hold
    refine (walk_keeping hg hthread hruns hinside hunderway).mono (fun _ hk => hk) ?_
    exact fun _ _ hr => .inl hr
  cases hc : m thread with
  | none =>
    apply hwalk _ _ _ rfl
    rw [hc]
    rintro _ ⟨⟩
  | some c =>
    have hsame (s : State) (hs : s.step = c.state.step) :
        ∀ d, m thread = some d → d.state.step ≤ s.step := by
      rw [hc, hs]
      rintro _ ⟨⟩
      exact Nat.le_refl _
    dsimp only
    cases hpending : c.state.interrupt with
    | some pending =>
      dsimp only
      split
      · have hwaits := Latest.pending?_eq_some_iff.2 ⟨c, hc, hpending⟩
        exact .inr ⟨pending, c.state, rfl, hwaits, rfl⟩
      · exact hwalk _ _ _ rfl (hsame _ rfl)
    | none =>
      dsimp only
      split
      · exact hwalk _ _ _ hpending (hsame _ rfl)
      · exact hwalk _ _ _ hpending (hsame _ rfl)

theorem resumeThread_keeping (hm : m.Sound) (value : Value) :
    (g.resumeThread (GraphNode.runnerIn? nodes) thread value).Meets
      (.keeping store watched) m.Quiet (fun r k => r.Leaves m g nodes thread k) m := by
  unfold resumeThread
  apply meets_bind (load_keeping hg.store hthread)
  rintro _ _ ⟨rfl, rfl⟩
  rename_i m
  cases hc : m thread with
  | none => exact hm.quiet
  | some c =>
    dsimp only
    cases hpending : c.state.interrupt with
    | none => exact hm.quiet
    | some pending =>
      apply walk_keeping hg hthread hruns hinside
      refine ⟨hm.quiet, rfl, fun old hold => ?_⟩
      rw [hc] at hold
      cases hold
      exact Nat.le_of_eq (hm thread c hc)

end GraphFrame

/-! ## Nodes -/

namespace GraphNode

variable {store : Store} {watched : String → Prop} {thread : String}

theorem Wired.storedIn {g : GraphFrame} {nodes : List (String × GraphNode)}
    (h : Wired (some store) g nodes) : StoredIn (· = store) g nodes := by
  intro other hother
  rw [h.store] at hother
  exact (Option.some.inj hother).symm

theorem runnerKeeps_of_obeys {node : GraphNode}
    (h : ∀ s scope resume, scope.thread = thread →
      (node.runner s scope resume).Obeys (Call.Elsewhere store watched)
        (NodeRun.Regular node.MaySuspend))
    (hmay : ∀ thread k s, node.MaySuspend s → node.LeavesBelow thread k s) :
    node.RunnerKeeps store watched thread := by
  intro s scope resume hthread m hm
  have hkeeps := (h s scope resume hthread).meets m.Quiet
    (fun k c hk hc => ⟨Or.inl hc, fun a l hl => hc.unchanged hl ▸ hk⟩) (fun _ hc => hc) hm.quiet
  refine hkeeps.mono (fun _ hk => hk) ?_
  rintro r k ⟨hregular, hk⟩
  unfold NodeFrame.Ends
  split
  · next suspension hsuspend =>
    exact ⟨hk.sound, hmay _ _ _ (hregular.suspends suspension hsuspend)⟩
  · exact hk

theorem leaf_keeping (frame : NodeFrame) (action : Action) :
    (GraphNode.leaf frame action).RunnerKeeps store watched thread := by
  apply runnerKeeps_of_obeys
  · intro s scope resume _
    apply NodeFrame.execute_obeys
    intro v _ _ _
    exact (action.behaviour_obeys frame.id v).mono (fun _ hc => hc.on) fun _ ha => ha
  · rintro thread k _ ⟨n, message, rfl, rfl⟩
    exact ⟨rfl, rfl⟩

theorem map_keeping (frame : NodeFrame) (spec : MapSpec) {inner : GraphNode}
    (h : inner.EveryGraph (Wired (some store)))
    (htasks : ∀ scope index other, scope.thread = thread →
      Thread.Inside (MapNode.taskScope frame.id scope index).thread other → ¬ watched other) :
    (GraphNode.map frame spec inner).RunnerKeeps store watched thread := by
  apply runnerKeeps_of_obeys
  · intro s scope resume hthread
    apply NodeFrame.execute_obeys
    rintro v _ rfl _
    apply MapNode.behaviour_obeys
    intro t index
    have hstored := h.mono fun _ _ hg => hg.storedIn
    have hcalls := runner_obeys hstored t (MapNode.taskScope frame.id v.scope index) none
    refine hcalls.mono ?_ fun _ _ => trivial
    intro c hc
    refine hc.mono fun other below ⟨hother, hinside⟩ => ⟨hother, ?_⟩
    exact htasks v.scope index below hthread hinside
  · exact fun _ _ _ hs => hs.elim

theorem attempt_keeping {frame : NodeFrame} {mappings : FieldMappings} {graph : GraphFrame}
    {nodes : List (String × GraphNode)} {thread : String} {m l k : Latest} (hl : m.Quiet l)
    {r : RunResult} (h : r.Leaves l graph nodes (thread ++ "/" ++ frame.id) k) :
    NodeFrame.Ends m.Quiet
      (fun s k => k.Sound ∧ (GraphNode.subgraph frame mappings graph nodes).LeavesBelow thread k s)
      (mappings.outcome frame.id graph.name r) k := by
  cases r with
  | complete s => exact hl.trans h.1
  | suspended pending s => exact ⟨h.1, rfl, pending, h.2, rfl, rfl⟩
  | failed e s => exact hl.trans h

/-- A subgraph leaves the threads below as its graph does. A fresh visit forgets an older run of the
graph before, which then waits for nothing. -/
theorem subgraph_keeping {frame : NodeFrame} {mappings : FieldMappings} {graph : GraphFrame}
    {nodes : List (String × GraphNode)} (hgraph : Wired (some store) graph nodes) {v : Visit}
    (hruns : ∀ p ∈ nodes, p.2.RunnerKeeps store watched (v.scope.childThread frame.id))
    (hinside : ∀ p ∈ nodes, p.2.EveryGraph (StoredIn (· = store)))
    (hchild : watched (v.scope.childThread frame.id)) {m l : Latest} (hl : m.Quiet l) :
    NodeFrame.AttemptMeets (.keeping store watched) m.Quiet
      (fun s k => k.Sound ∧
        (GraphNode.subgraph frame mappings graph nodes).LeavesBelow v.scope.thread k s)
      (mappings.behaviour frame.id graph (runnerIn? nodes) v) l := by
  unfold FieldMappings.behaviour
  dsimp only
  split
  · next value _ =>
    have hresume := GraphFrame.resumeThread_keeping hgraph hchild hruns hinside hl.sound value
    apply meets_bind (hresume.mono (fun _ hk => hl.trans hk) fun _ _ hr => hr)
    exact fun r k hr => attempt_keeping hl hr
  · apply meets_bind (GraphFrame.reset_keeping hgraph.store hchild)
    rintro _ k ⟨rfl, hk⟩
    have hforgotten : m.Quiet k := by
      rw [hk]
      refine hl.trans ⟨hl.sound.update (by rintro _ ⟨⟩), ?_⟩
      apply Latest.Calmer.update
      rintro _ ⟨⟩
    have hnone : k.pending? (v.scope.childThread frame.id) = none := by
      rw [hk, Latest.pending?_update_self]
      rfl
    have hrun := GraphFrame.runThread_keeping hgraph hchild hruns hinside hforgotten.sound
      (mappings.inputOf v.state)
    apply meets_bind (hrun.mono (fun _ hl => hforgotten.trans hl) fun _ _ hr => hr)
    rintro r l (hleaves | ⟨pending, _, _, hpending, _⟩)
    · exact attempt_keeping hforgotten hleaves
    · rw [hnone] at hpending
      cases hpending

/-- **Nodes leave the threads below their graph as they should.** By induction on the graphs
inside the node. -/
theorem runner_keeping {node : GraphNode} (h : node.EveryGraph (Wired (some store)))
    (hapart : node.Apart watched thread) : node.RunnerKeeps store watched thread := by
  induction h generalizing thread with
  | leaf frame action => exact leaf_keeping frame action
  | map frame spec h _ =>
    cases hapart with
    | map _ _ htasks => exact map_keeping frame spec h htasks
  | @subgraph frame mappings graph nodes here inside ih =>
    cases hapart with
    | subgraph _ _ hchild hbelow =>
      rintro s scope resume rfl m hm
      have hruns : ∀ p ∈ nodes,
          p.2.RunnerKeeps store watched (scope.thread ++ "/" ++ frame.id) := fun p hp =>
        ih p hp (hbelow p hp)
      have hinside : ∀ p ∈ nodes, p.2.EveryGraph (StoredIn (· = store)) := fun p hp =>
        (inside p hp).mono fun _ _ hg => hg.storedIn
      have hbehaviour : ∀ v : Visit, v.state = s → v.scope = scope → v.resume = resume →
          ∀ l, m.Quiet l → NodeFrame.AttemptMeets (.keeping store watched) m.Quiet
            (fun s k => k.Sound ∧
              (GraphNode.subgraph frame mappings graph nodes).LeavesBelow scope.thread k s)
            (mappings.behaviour frame.id graph (runnerIn? nodes) v) l := by
        rintro v _ rfl _ l hl
        exact subgraph_keeping here hruns hinside hchild hl
      refine (NodeFrame.execute_meets hbehaviour hm.quiet).mono (fun _ hk => hk) ?_
      exact fun r k hr => hr.1

end GraphNode

/-! ## Graphs -/

namespace Graph

variable {store : Store} {watched : String → Prop} {thread : String} {m : Latest} {g : Graph}

theorem Placed.runners_keep (hg : g.Placed store watched thread) :
    ∀ p ∈ g.nodes, p.2.RunnerKeeps store watched thread := by
  intro p hp
  exact GraphNode.runner_keeping (hg.wired.inside p hp) (hg.apart p hp)

theorem Placed.storedIn (hg : g.Placed store watched thread) :
    ∀ p ∈ g.nodes, p.2.EveryGraph (GraphNode.StoredIn (· = store)) := by
  intro p hp
  exact (hg.wired.inside p hp).mono fun _ _ h => h.storedIn

/-- A run leaves the threads of a graph as it should, or says again what its thread waits for. -/
theorem run_keeping (hg : g.Placed store watched thread) (hm : m.Sound) (input : Value) :
    (g.run input thread).Meets (.keeping store watched) m.Quiet
      (fun r k => r.Leaves m g.frame g.nodes thread k ∨ r.Reports m thread k) m := by
  have hfields (fields : Fields) := GraphFrame.runThread_keeping hg.wired.here hg.here
    hg.runners_keep hg.storedIn hm fields
  unfold run
  split
  · exact hfields _
  · exact hfields _
  · exact .inl hm.quiet

theorem resume_keeping (hg : g.Placed store watched thread) (hm : m.Sound) (value : Value) :
    (g.resume thread value).Meets (.keeping store watched) m.Quiet
      (fun r k => r.Leaves m g.frame g.nodes thread k) m :=
  GraphFrame.resumeThread_keeping hg.wired.here hg.here hg.runners_keep hg.storedIn hm value

end Graph

end WorkflowGraph
