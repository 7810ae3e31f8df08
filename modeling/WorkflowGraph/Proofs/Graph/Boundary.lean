import WorkflowGraph.Proofs.Activity.Twins
import WorkflowGraph.Proofs.Graph.Oblivious
import WorkflowGraph.Proofs.Node.FanOut

/-!
# What crosses the boundary of a subgraph

A subgraph that is entered afresh gets the values of its input mapping from the state around it, and
nothing else, neither from this state nor from the checkpoints of older runs
(`subgraphs_keep_to_their_mappings`). What it hands back are the fields that its mappings name
(`FieldMappings.Crosses`).
-/

set_option autoImplicit false

namespace WorkflowGraph

open Activity

namespace FieldMappings

/-- Whether an update writes just the fields that a mapping takes a state's values to. A value that
the state does not hold is left out. -/
def Carries (mapping : Dict String) (s : State) (u : Update) : Prop :=
  ∀ field value, (field, value) ∈ u.writes ↔
    ∃ source, (source, field) ∈ mapping ∧ s.at? source = some value

/-- What the node of a subgraph may come to when the graph inside it has come to a result. -/
inductive Crosses (m : FieldMappings) : RunResult → Except TaskError NodeOutcome → Prop where
  | complete {s : State} {u : Update} (h : Carries m.output s u) :
    Crosses m (.complete s) (.ok (.proceed u))
  | suspended {pending : PendingInterrupt} {s : State} {u : Update} (h : Carries m.interrupt s u) :
    Crosses m (.suspended pending s)
      (.ok (.suspend ⟨u, pending.payload, pending.resumeKey, true⟩))
  | failed {e : RunError} {s : State} {reason : TaskError} :
    Crosses m (.failed e s) (.error reason)

theorem carries_back (mapping : Dict String) (s : State) : Carries mapping s (back mapping s) := by
  intro field value
  unfold back
  rw [List.mem_filterMap]
  constructor
  · rintro ⟨⟨source, target⟩, hmem, hvalue⟩
    obtain ⟨v, hv, heq⟩ := Option.map_eq_some_iff.1 hvalue
    cases heq
    exact ⟨source, hmem, hv⟩
  · rintro ⟨source, hmem, hv⟩
    refine ⟨(source, field), hmem, ?_⟩
    rw [hv]
    rfl

theorem crosses_outcome (m : FieldMappings) (id name : String) (r : RunResult) :
    m.Crosses r (m.outcome id name r) := by
  cases r with
  | complete s => exact .complete (carries_back _ _)
  | suspended pending s => exact .suspended (carries_back _ _)
  | failed e s => exact .failed

/-- States that agree on the paths of the input mapping give the same input. -/
theorem inputOf_congr (m : FieldMappings) {s t : State}
    (h : ∀ p ∈ m.input, s.at? p.1 = t.at? p.1) : m.inputOf s = m.inputOf t := by
  unfold inputOf
  refine List.foldl_ext _ _ _ fun d p hp => ?_
  rw [h p hp]

/-- A fresh visit forgets the thread of the graph inside, and runs the graph on it. -/
theorem behaviour_fresh (m : FieldMappings) (id : String) (g : GraphFrame)
    (runner? : String → Option Runner) {v : Visit} (hv : v.resume = none) :
    m.behaviour id g runner? v = (g.reset (v.scope.childThread id)).bind fun
      | .error e => .done (.of (.error (.failed id e.message)))
      | .ok _ => (g.runThread runner? (m.inputOf v.state) (v.scope.childThread id)).bind fun r =>
        .done (.of (m.outcome id g.name r)) := by
  unfold behaviour
  dsimp only
  rw [hv]
  rfl

/-- Fresh visits of one thread with the same input do the same. -/
theorem behaviour_congr (m : FieldMappings) (id : String) (g : GraphFrame)
    (runner? : String → Option Runner) {v v' : Visit} (hv : v.resume = none)
    (hv' : v'.resume = none) (hthread : v'.scope.thread = v.scope.thread)
    (h : ∀ p ∈ m.input, v.state.at? p.1 = v'.state.at? p.1) :
    m.behaviour id g runner? v' = m.behaviour id g runner? v := by
  rw [m.behaviour_fresh id g runner? hv, m.behaviour_fresh id g runner? hv', m.inputOf_congr h]
  unfold Scope.childThread
  rw [hthread]

end FieldMappings

/-! ## Carrying out a fresh visit -/

theorem Activity.inTurn_map {α β : Type} (f : α → β) (p : Activity α) (host : Host Unit)
    (runs : Option (List NodeRun)) (s : Storage) :
    ((p.bind fun a => .done (f a)).inTurn host runs s).result =
      f (p.inTurn host runs s).result := by
  induction p generalizing runs s with
  | done a => rfl
  | wait _ p ih => exact ih f runs s
  | ask c rest ih => exact ih _ f runs _
  | start limit count task rest _ ih => exact ih 0 f _ _
  | join group span rest ih => exact ih runs 0 f none s

theorem Activity.ComesTo.mono {α : Type} {host : Host Unit} {start other : Storage → Prop}
    {p : Activity α} {a : α} (h : p.ComesTo host start a) (hstart : ∀ s, other s → start s) :
    p.ComesTo host other a :=
  fun s t steps calls u hs => h s t steps calls u (hstart s hs)

theorem NodeRun.haltsOnly_trivial (r : NodeRun) : r.HaltsOnly True := by
  rintro (update | suspension) _
  · trivial
  · trivial

/-- A world in which no tasks are under way stays as its twin does. -/
theorem World.twins_of_idle {σ : Type} {P : Store → Prop} {Sound : Storage → Prop} {w : World σ}
    {s : Storage} (hidle : w.crew.strands = []) (hw : Sound w.storage) (hs : Sound s) :
    w.Twins P (NodeRun.HaltsOnly True) Sound s := by
  refine ⟨hw, hs, ?_, fun g _ p _ => p.2.haltsOnly_trivial⟩
  rw [hidle]
  exact Crew.oblivious_nil

/-- Nodes keep to the threads below that of their graph. -/
theorem GraphNode.runner_confined {P : Store → Prop} {node : GraphNode}
    (h : node.EveryGraph (StoredIn P)) (s : State) (scope : Scope) (resume : Option Value) :
    (node.runner s scope resume).Confined P (Thread.Inside scope.thread)
      fun r => ∀ e ∈ r.errors, True :=
  runner_holds (Confined.discipline P) (fun _ _ _ => trivial) h (.inl (Confined.cuts_discipline P))
    s scope resume (.inl (Confined.cuts_discipline P))

namespace FieldMappings

variable {H : Type} {P : Store → Prop} {Sound : Storage → Prop} {held : Storage → String → H}
  (m : FieldMappings) (frame : NodeFrame) {g : GraphFrame} {nodes : List (String × GraphNode)}

/-- In turn, a fresh visit comes to what the graph inside comes to in a storage that has forgotten
its thread. -/
theorem behaviour_inTurn (hgraph : GraphNode.StoredIn P g nodes)
    (hkeeps : ∀ kept, P kept → kept.KeepsApart (· ≠ "") Sound held) {v : Visit}
    (hv : v.resume = none) (host : Host Unit) {s : Storage} (hs : Sound s) :
    ∃ first : Storage, first.Clear Sound (g.store.map (·, v.scope.childThread frame.id)) ∧
      ((m.behaviour frame.id g (GraphNode.runnerIn? nodes) v).inTurn host none s).result =
        .of (m.outcome frame.id g.name
          ((g.runThread (GraphNode.runnerIn? nodes) (m.inputOf v.state)
            (v.scope.childThread frame.id)).inTurn host none first).result) := by
  have hchild := (Thread.inside_childThread v.scope frame.id).ne_empty
  rw [m.behaviour_fresh frame.id g _ hv]
  unfold GraphFrame.reset
  cases hkept : g.store with
  | none => exact ⟨s, .of_sound hs, inTurn_map _ _ host none s⟩
  | some kept =>
    have hapart := hkeeps kept (hgraph kept hkept)
    obtain ⟨hdone, hgone⟩ := hapart.forgets _ hchild s hs
    refine ⟨(kept.delete s (v.scope.childThread frame.id)).2,
      .of_load ((hapart.delete _ hchild).sound s hs) hgone, ?_⟩
    change ((Activity.bind (.done (Except.mapError RunError.checkpoint (kept.delete s _).1))
      _).inTurn host none (kept.delete s _).2).result = _
    rw [hdone]
    exact inTurn_map _ _ host none _

/-- In a world, a fresh visit comes to what the graph inside comes to after its thread has been
forgotten. -/
theorem behaviour_run {σ : Type} (hmemory : ∀ kept, g.store = some kept → kept = .memory)
    {v : Visit} (hv : v.resume = none) (host : Host σ) (w : World σ) :
    ((m.behaviour frame.id g (GraphNode.runnerIn? nodes) v).run host w).1 =
      .of (m.outcome frame.id g.name ((g.runThread (GraphNode.runnerIn? nodes)
        (m.inputOf v.state) (v.scope.childThread frame.id)).run host
          ((g.reset (v.scope.childThread frame.id)).run host w).2).1) := by
  have hreset : ((g.reset (v.scope.childThread frame.id)).run host w).1 = .ok () := by
    unfold GraphFrame.reset
    split
    · rfl
    · next kept hkept =>
      rw [hmemory kept hkept]
      rfl
  rw [m.behaviour_fresh frame.id g _ hv, run_bind, hreset]
  dsimp only
  rw [run_bind]
  rfl

/-- A visit of a subgraph in which nothing is cut off waits for all that it starts. -/
theorem patient_behaviour {frame : NodeFrame}
    (h : (GraphNode.subgraph frame m g nodes).Untimed) (v : Visit) :
    (m.behaviour frame.id g (GraphNode.runnerIn? nodes) v).Patient := by
  cases h with | subgraph _ _ _ hnode hrun hinside =>
  refine (GraphNode.subgraph_behaviour_holds Activity.Patient.discipline frame m
    (fun _ _ => trivial) (fun p hp s resume thread => ?_) (.inr hrun) v).1
  exact GraphNode.runner_holds Activity.Patient.discipline (fun _ _ _ => trivial)
    (GraphNode.everyGraph_of_forall p.2 fun _ _ _ _ => trivial) (.inr (hinside p hp)) s _ resume
    (.inr hnode)

section Fresh

variable (hgraph : GraphNode.StoredIn P g nodes)
  (hnodes : ∀ p ∈ nodes, p.2.EveryGraph (GraphNode.StoredIn P))
  (hkeeps : ∀ kept, P kept → kept.KeepsApart (· ≠ "") Sound held) {v : Visit}
  (hv : v.resume = none)

include hnodes hgraph

theorem runThread_confined (input : Fields) (thread : String) :
    (g.runThread (GraphNode.runnerIn? nodes) input thread).Confined P
      (fun other => other = thread ∨ Thread.Inside thread other) fun _ => True := by
  refine GraphFrame.runThread_holds (Confined.discipline P).toJudgement
    (fun kept hkept => ⟨hgraph kept hkept, .inl rfl⟩) (fun id runner hrunner s resume => ?_)
    (.inl (Confined.cuts_discipline P)) input
  obtain ⟨node, hmem, rfl⟩ := GraphNode.exists_of_runnerIn? hrunner
  exact (GraphNode.runner_confined (hnodes _ hmem) s _ resume).mono (fun _ => .inr)
    fun _ _ => trivial

include hkeeps hv

/-- In every schedule, a fresh visit comes to what the graph inside comes to. -/
theorem behaviour_comesTo (host : Host Unit) {s : Storage} (hs : Sound s) :
    ∃ r, (g.runThread (GraphNode.runnerIn? nodes) (m.inputOf v.state)
        (v.scope.childThread frame.id)).ComesTo host
          (Storage.Clear Sound (g.store.map (·, v.scope.childThread frame.id))) r ∧
      (m.behaviour frame.id g (GraphNode.runnerIn? nodes) v).ComesTo host Sound
        (.of (m.outcome frame.id g.name r)) := by
  have hruns (p : String × GraphNode) (hp : p ∈ nodes) :=
    GraphNode.runner_oblivious_trivial (hnodes p hp)
  have hchild := (Thread.inside_childThread v.scope frame.id).ne_empty
  obtain ⟨first, hfirst, hresult⟩ := m.behaviour_inTurn frame hgraph hkeeps hv host hs
  have hinside := GraphNode.runThread_oblivious hgraph hruns (m.inputOf v.state) hchild
  have hvisit := GraphNode.subgraph_behaviour_oblivious frame m hgraph hruns hv
  have hconfined := GraphNode.subgraph_behaviour_holds (Confined.discipline P) frame m hgraph
    (fun p hp s resume thread =>
      GraphNode.runner_confined (hnodes p hp) s ⟨thread, g.config⟩ resume)
    (.inl (Confined.cuts_discipline P)) v
  have hcomes := hvisit.comesTo hkeeps hconfined (fun _ h => h.ne_empty) host (.of_sound hs)
  rw [hresult] at hcomes
  refine ⟨_, ?_, hcomes.mono fun _ => .of_sound⟩
  refine hinside.comesTo hkeeps (runThread_confined hgraph hnodes _ _) ?_ host hfirst
  rintro _ (rfl | h)
  · exact hchild
  · exact h.ne_empty

/-- In worlds that differ in their storage only, a fresh visit comes to the same. -/
theorem behaviour_twins (hmemory : ∀ kept, P kept → kept = .memory) {σ : Type} (host : Host σ)
    {w : World σ} (hidle : w.crew.strands = []) (hw : Sound w.storage) {s : Storage}
    (hs : Sound s) :
    ((m.behaviour frame.id g (GraphNode.runnerIn? nodes) v).run host (w.onto s)).1 =
      ((m.behaviour frame.id g (GraphNode.runnerIn? nodes) v).run host w).1 := by
  have hruns (p : String × GraphNode) (hp : p ∈ nodes) :=
    GraphNode.runner_oblivious_trivial (hnodes p hp)
  have hvisit := GraphNode.subgraph_behaviour_oblivious frame m hgraph hruns hv
  obtain ⟨t, hrun, _⟩ := hvisit.run hkeeps hmemory host (World.twins_of_idle hidle hw hs)
    (.of_sound hw) (.of_sound hs)
  rw [hrun]

end Fresh

end FieldMappings

/-! ## The main result -/

/-- **Subgraphs keep to their mappings.** Take a subgraph of a compiled graph, at any depth, and two
fresh visits of it on one thread, whose states agree on the paths of its input mapping. Both come to
the same, which is what the graph inside comes to with this input on a thread that has no
checkpoint: in every schedule with executors and tools that are functions of what they are asked,
whatever is kept in the storage, as long as the store can work with it at all. So they do in every
world in which nothing is under way yet, if nothing inside is cut off after a span of time. Where
checkpoints are kept in memory, they come to the same also with timeouts, in worlds that differ in
their storage only, whatever time things take. What is handed on are the fields that the mappings of
the subgraph name: those for a complete run, or those for a suspended one. -/
theorem subgraphs_keep_to_their_mappings {c : Compiler} {store : Option Store} {depth : Nat}
    {stack : SourceStack} {d : Definition} {g : Graph} (hg : c.assemble store depth stack d = .ok g)
    {graph inner : GraphFrame} {nodes others : List (String × GraphNode)} {frame : NodeFrame}
    {mappings : FieldMappings}
    (hsub : g.Executes graph nodes (.subgraph frame mappings inner others)) {v v' : Visit}
    (hfresh : v.resume = none) (hfresh' : v'.resume = none)
    (hthread : v'.scope.thread = v.scope.thread)
    (hagree : ∀ p ∈ mappings.input, v.state.at? p.1 = v'.state.at? p.1) {s : Storage}
    (hs : s.ReadyFor store) :
    let child := v.scope.childThread frame.id
    let computes (v : Visit) := mappings.behaviour frame.id inner (GraphNode.runnerIn? others) v
    let inside := inner.runThread (GraphNode.runnerIn? others) (mappings.inputOf v.state) child
    let outcome (r : RunResult) : Attempt := .of (mappings.outcome frame.id inner.name r)
    (∀ host : Host Unit, ∃ r,
      inside.ComesTo host (Storage.Clear (Storage.ReadyFor store) (store.map (·, child))) r ∧
      (computes v).ComesTo host (Storage.ReadyFor store) (outcome r) ∧
      (computes v').ComesTo host (Storage.ReadyFor store) (outcome r) ∧
      ((GraphNode.subgraph frame mappings inner others).Untimed →
        ∀ w : World Unit, w.crew.strands = [] → w.storage.ReadyFor store →
          ((computes v).run host w).1 = outcome r ∧ ((computes v').run host w).1 = outcome r)) ∧
    ((∀ kept, store = some kept → kept = .memory) → ∀ {σ : Type} (host : Host σ) (w : World σ),
      w.crew.strands = [] → w.storage.ReadyFor store →
      ((computes v).run host w).1 =
        outcome (inside.run host ((inner.reset child).run host w).2).1 ∧
      ((computes v').run host (w.onto s)).1 = ((computes v).run host w).1) ∧
    ∀ r, mappings.Crosses r (mappings.outcome frame.id inner.name r) := by
  intro child computes inside outcome
  obtain ⟨_, hwired⟩ := (Compiler.wired_of_assemble hg).executes hsub
  cases hwired with | subgraph _ _ hinner hothers =>
  obtain ⟨_, _, hkeeps⟩ := Storage.exists_keepsApart store
  have hgraph : GraphNode.StoredIn (fun kept => store = some kept) inner others :=
    fun kept hkept => hinner.store.symm.trans hkept
  have hnodes (p : String × GraphNode) (hp : p ∈ others) :
      p.2.EveryGraph (GraphNode.StoredIn fun kept => store = some kept) :=
    (hothers p hp).mono fun _ _ hwired kept hkept => hwired.store.symm.trans hkept
  have hsame : computes v' = computes v :=
    mappings.behaviour_congr frame.id inner _ hfresh hfresh' hthread hagree
  rw [hsame]
  refine ⟨fun host => ?_, fun hmemory σ host w hidle hw => ⟨?_, ?_⟩,
    mappings.crosses_outcome frame.id inner.name⟩
  · obtain ⟨r, hinside, hvisit⟩ :=
      mappings.behaviour_comesTo frame hgraph hnodes hkeeps hfresh host hs
    rw [hinner.store] at hinside
    refine ⟨r, hinside, hvisit, hvisit, fun huntimed w hidle hw => ?_⟩
    obtain ⟨⟨_, _, hschedule⟩, _⟩ := (mappings.patient_behaviour huntimed v).run host hidle
    have hend := (hvisit _ _ _ _ _ hw hschedule).2 _ rfl
    exact ⟨hend, hend⟩
  · exact mappings.behaviour_run frame (fun kept hkept => hmemory kept (hgraph kept hkept)) hfresh
      host w
  · exact mappings.behaviour_twins frame hgraph hnodes hkeeps hfresh hmemory host hidle hw hs

/-- A storage in which an older run of the graph inside has stopped before its last node. -/
def staleStorage : Storage :=
  ⟨MemoryStore.empty.save (.ofState "t/sub" .blank (some "work")), .empty⟩

/-- A fresh visit of the graph that asks, with a state of its own. -/
def askVisit (fields : Fields) : Visit := ⟨.ofFields fields, ⟨"t", .standard⟩, none, false⟩

/-- The graph that asks does so again, whatever stands in the state around it and in the checkpoints
of an older run. -/
theorem stale_checkpoint_not_resumed :
    oneExecutor.assemble (some .memory) 2 .empty askParent = .ok askGraph ∧
    (((FieldMappings.mk [] [("result", "result")] []).behaviour "sub" askChildFrame
        (GraphNode.runnerIn? askChildNodes) (askVisit [("user_input", .text "Ada")])).run downHost
          (.initial () staleStorage)).1.result =
      .ok (.suspend ⟨.empty, .text "Name?", "user_input", true⟩) := by
  have hg : oneExecutor.assemble (some .memory) 2 .empty askParent = .ok askGraph := by
    with_unfolding_all rfl
  have hmember : ("sub", GraphNode.subgraph ⟨"sub", none, ⟨.fail, none, none, ["result"], []⟩⟩
      ⟨[], [("result", "result")], []⟩ askChildFrame askChildNodes) ∈ askGraph.nodes :=
    List.mem_singleton.2 rfl
  have hstale : staleStorage.ReadyFor (some .memory) :=
    Storage.readyFor_memory (MemoryStore.sound_empty.save _)
  obtain ⟨_, hworlds, _⟩ := subgraphs_keep_to_their_mappings hg (.node hmember)
    (show (askVisit []).resume = none from rfl)
    (show (askVisit [("user_input", .text "Ada")]).resume = none from rfl) rfl
    (by rintro p ⟨⟩) hstale
  have hmemory : ∀ kept, some Store.memory = some kept → kept = .memory := by
    rintro _ ⟨⟩
    rfl
  obtain ⟨_, hsame⟩ := hworlds hmemory downHost (.initial () .empty) rfl
    (Storage.readyFor_empty (by rintro f ⟨⟩))
  refine ⟨hg, ?_⟩
  refine (congrArg Attempt.result hsame).trans ?_
  with_unfolding_all rfl

end WorkflowGraph
