import WorkflowGraph.Proofs.Graph.Boundary

/-!
# What the tasks of maps may wait for

A definition is compiled only if none of its maps runs an interrupt, be it inside further maps. The
definitions of subgraphs are looked at each for itself, so that a map may well run a subgraph with
an interrupt inside. Its tasks then suspend, which the map takes for failures
(`interrupt_suspends_inside_map`). This is the only way: what a map runs is executed to its end
otherwise, and no map ever suspends itself (`map_tasks_suspend_only_in_subgraphs`).
-/

set_option autoImplicit false

namespace WorkflowGraph

open Activity

/-- Whether the execution of a node has ended in a suspension. -/
def NodeRun.IsSuspended (r : NodeRun) : Prop := ∃ suspension, r.result = .ok (.suspend suspension)

theorem NodeRun.HaltsOnly.not_isSuspended {may : Prop} {r : NodeRun} (h : r.HaltsOnly may)
    (hmay : ¬ may) : ¬ r.IsSuspended := by
  rintro ⟨suspension, hsuspended⟩
  exact hmay (h _ hsuspended)

/-! ## What compiled maps run -/

namespace GraphNode

/-- Whether a node is an interrupt, or a map around one. -/
inductive Asks : GraphNode → Prop where
  | interrupt (frame : NodeFrame) (n : InterruptNode) : Asks (.leaf frame (.interrupt n))
  | map (frame : NodeFrame) (spec : MapSpec) {inner : GraphNode} (h : Asks inner) :
    Asks (.map frame spec inner)

/-- Whether no map of a graph runs an interrupt. -/
def MapsDoNotAsk (_ : GraphFrame) (nodes : List (String × GraphNode)) : Prop :=
  ∀ id frame spec inner, (id, GraphNode.map frame spec inner) ∈ nodes → ¬ inner.Asks

/-- What may suspend and does not ask is a subgraph. -/
theorem Halts.exists_subgraph {node : GraphNode} (h : node.Halts) (hasks : ¬ node.Asks) :
    ∃ frame mappings graph nodes, node = .subgraph frame mappings graph nodes ∧
      ∃ p ∈ nodes, p.2.Halts := by
  cases h with
  | interrupt frame n => exact (hasks (.interrupt frame n)).elim
  | subgraph frame mappings graph hp h => exact ⟨frame, mappings, graph, _, rfl, _, hp, h⟩

end GraphNode

/-- The nodes that maps run do not ask, at any depth. By induction on the way to the map. -/
theorem Graph.Executes.not_asks {g : Graph} (hg : g.Everywhere GraphNode.MapsDoNotAsk)
    {graph : GraphFrame} {nodes : List (String × GraphNode)} {node : GraphNode}
    (h : g.Executes graph nodes node) {frame : NodeFrame} {spec : MapSpec} {inner : GraphNode}
    (hnode : node = .map frame spec inner) : ¬ inner.Asks := by
  induction h generalizing frame spec inner with
  | @node p hp =>
    obtain ⟨id, node⟩ := p
    dsimp only at hnode
    subst hnode
    exact hg.here id frame spec inner hp
  | task _ ih =>
    subst hnode
    exact fun hasks => ih rfl (.map frame spec hasks)
  | @inside _ _ _ _ _ _ h p hp _ =>
    obtain ⟨id, node⟩ := p
    dsimp only at hnode
    subst hnode
    obtain ⟨_, hsubgraph⟩ := hg.executes h
    cases hsubgraph with | subgraph _ _ hhere _ => exact hhere id frame spec inner hp

namespace Compiler

variable {c : Compiler} {inner : Inner} {env : Surroundings} {d : Definition}

/-- What is compiled from a node that may stand inside a map does not ask. By induction through the
nodes inside maps. -/
theorem CompiledAs.not_asks {kind : NodeKind} {id : String} {options : NodeOptions} {skip : Bool}
    {made : GraphNode} (h : CompiledAs c inner env id options skip kind made)
    (hfaults : d.nodeFaults id options true kind = []) : ¬ made.Asks := by
  induction h with
  | interrupt =>
    have hrefused := (List.append_eq_nil_iff.1 hfaults).2
    cases hrefused
  | map spec h ih =>
    have hinside := ih (List.append_eq_nil_iff.1 hfaults).2
    rintro ⟨⟩
    contradiction
  | _ => rintro ⟨⟩

theorem Linked.mapsDoNotAsk {store : Option Store} {stack : SourceStack} {g : Graph}
    (hd : d.faults = []) (h : Linked c inner store stack d g) :
    GraphNode.MapsDoNotAsk g.frame g.nodes := by
  intro id frame spec node hmem
  rw [h.nodes] at hmem
  obtain ⟨decl, hdecl, _, hmade⟩ := exists_of_mem_nodesOf hmem
  obtain ⟨innerOptions, task, hkind, htask⟩ := map_of_nodeOf hmade
  have hfaults := (Definition.faults_eq_nil_iff.1 hd).2.1 decl hdecl
  rw [hkind] at hfaults
  exact htask.not_asks (List.append_eq_nil_iff.1 hfaults).2

end Compiler

/-! ## What the tasks come to -/

section Tasks

variable {H : Type} {P : Store → Prop} {Sound : Storage → Prop} {held : Storage → String → H}
  (hkeeps : ∀ kept, P kept → kept.KeepsApart (· ≠ "") Sound held)

namespace GraphNode

variable {node : GraphNode} (h : node.EveryGraph (StoredIn P)) (hhalts : ¬ node.Halts)

include hkeeps h hhalts

/-- What does not halt is executed to its end in every schedule. -/
theorem not_isSuspended_of_schedule (before : State) (scope : Scope) {host : Host Unit}
    {s t : Storage} {steps : Nat} {calls : List Call} {r : NodeRun} (hs : Sound s)
    (hschedule : Underway.Schedule host steps s (.going (node.runner before scope none)) calls t
      (.going (.done r))) : ¬ r.IsSuspended := by
  have hblind := runner_oblivious_trivial h before scope
  obtain ⟨_, hend⟩ := hblind.comesTo hkeeps (runner_confined h before scope none)
    (fun _ hin => hin.ne_empty) host (.of_sound hs) s t steps calls _ (.of_sound hs) hschedule
  rw [hend r rfl]
  have hturn := hblind.inTurn hkeeps host (.of_sound hs) (.of_sound hs)
  exact hturn.holds.not_isSuspended hhalts

/-- What does not halt is executed to its end in every world. -/
theorem not_isSuspended_of_run (hmemory : ∀ kept, P kept → kept = .memory) (before : State)
    (scope : Scope) {σ : Type} (host : Host σ) {w : World σ} (hidle : w.crew.strands = [])
    (hw : Sound w.storage) : ¬ ((node.runner before scope none).run host w).1.IsSuspended := by
  obtain ⟨_, _, hholds, _⟩ := (runner_oblivious_trivial h before scope).run hkeeps hmemory host
    (World.twins_of_idle hidle hw hw) (.of_sound hw) (.of_sound hw)
  exact hholds.not_isSuspended hhalts

end GraphNode

/-- A map never suspends, whatever its tasks come to. -/
theorem GraphNode.map_never_suspends (inner : GraphNode) (frame : NodeFrame) (spec : MapSpec)
    (s : State) (scope : Scope) (resume : Option Value) {σ : Type} (host : Host σ) (w : World σ) :
    ¬ (((GraphNode.map frame spec inner).runner s scope resume).run host w).1.IsSuspended := by
  have hobeys : ((GraphNode.map frame spec inner).runner s scope resume).Obeys (fun _ => True)
      (NodeRun.Regular fun _ => False) :=
    NodeFrame.execute_obeys fun _ _ _ _ => MapNode.behaviour_obeys _ _ fun _ _ => obeys_trivial _
  rintro ⟨suspension, hsuspended⟩
  exact (hobeys.run host w).suspends suspension hsuspended

namespace MapNode

variable {inner : GraphNode} (h : inner.EveryGraph (GraphNode.StoredIn P)) {n : MapNode}
  {id : String} {v : Visit} {items : List Value} (hitems : n.items id v.state = .ok items)

include hkeeps h hitems

/-- A schedule of a map comes to what its tasks come to, none of which suspends. -/
theorem exists_join_of_schedule (hhalts : ¬ inner.Halts) {host : Host Unit} {s t : Storage}
    {steps : Nat} {calls : List Call} {a : Attempt} (hs : Sound s)
    (hschedule : Underway.Schedule host steps s (.going (n.behaviour id inner.runner v)) calls t
      (.going (.done a))) :
    ∃ runs, a = n.join id runs ∧ ∀ r ∈ runs, ¬ r.IsSuspended := by
  have hconfined := GraphNode.map_behaviour_holds (Confined.discipline P) n id
    (fun s scope resume _ => GraphNode.runner_confined h s scope resume) (v := v)
    (.inl (Confined.cuts_discipline P))
  obtain ⟨_, hend⟩ := hconfined.every_schedule_apart hkeeps (fun _ hin => hin.ne_empty) hs hschedule
  obtain ⟨hresult, _, _⟩ := behaviour_inTurn hitems host s
  obtain ⟨hsame, _, _⟩ := hend a rfl
  refine ⟨_, hsame.trans hresult, ?_⟩
  have hturn (i : Fin items.length) (s t : Storage) (hs : Sound s) (ht : Sound t) :
      Ended.Blind Sound (NodeRun.HaltsOnly inner.Halts)
        ((inner.runner (n.taskState v.state i (items.get i)) (taskScope id v.scope i) none).inTurn
          host none) s t :=
    (GraphNode.runner_oblivious_trivial h _ _).inTurn hkeeps host (.of_sound hs) (.of_sound ht)
  exact fun r hr => ((Ended.blind_each hturn hs hs).holds r hr).not_isSuspended hhalts

/-- In a world a map comes to what its tasks come to, none of which suspends, as long as no map
inside runs anything that halts. -/
theorem exists_join_of_run (hmemory : ∀ kept, P kept → kept = .memory) (hhalts : ¬ inner.Halts)
    (hmaps : inner.MapsHaltOnly False) {σ : Type} (host : Host σ) {w : World σ}
    (hidle : w.crew.strands = []) (hgroups : Crew.Hold (fun r => ¬ r.IsSuspended) w.crew.groups)
    (hw : Sound w.storage) :
    ∃ runs, ((n.behaviour id inner.runner v).run host w).1 = n.join id runs ∧
      ∀ r ∈ runs, ¬ r.IsSuspended := by
  have htasks (s : State) (index : Nat) :
      (inner.runner s (taskScope id v.scope index) none).Oblivious P (NodeRun.HaltsOnly False)
        (NodeRun.HaltsOnly False) none := by
    refine (GraphNode.runner_oblivious h hmaps s _).mono fun r hr outcome hresult => ?_
    exact (hr outcome hresult).mono hhalts
  have htwins : w.Twins P (NodeRun.HaltsOnly False) Sound w.storage := by
    refine ⟨hw, hw, ?_, fun g hg p hp => ?_⟩
    · rw [hidle]
      exact Crew.oblivious_nil
    · rintro (update | suspension) hresult
      · trivial
      · exact hgroups g hg p hp ⟨suspension, hresult⟩
  obtain ⟨_, _, hholds, _⟩ := (GraphNode.map_behaviour_oblivious n id htasks).run hkeeps hmemory
    host htwins (.of_sound hw) (.of_sound hw)
  obtain ⟨runs, hjoin, hruns⟩ := hholds items hitems
  exact ⟨runs, hjoin, fun r hr => (hruns r hr).not_isSuspended not_false⟩

end MapNode

end Tasks

/-! ## The main result -/

/-- A definition that runs another one once for every letter. -/
def mapAround (child : Value) : Definition where
  version := none
  name := "round"
  description := none
  entry := none
  defaults := .standard
  tools := []
  nodes := [⟨"each", .map ⟨"letters", "letter", "names", none⟩ .unset
    (.subgraph ⟨none, some child, [], [("result", "result")], []⟩), .unset⟩]
  edges := [⟨"each", .one "END", none⟩]
  loopLimits := []
  checkpoint := none

/-- A definition that asks for nothing. -/
def quietChild : Value :=
  .object [
    ("edges", .list [.object [("from", .text "work"), ("to", .text "END")]]),
    ("name", .text "child"),
    ("nodes", .object [("work", .object [("output", .text "result"), ("task", .text "work"),
      ("type", .text "transform")])])]

/-- The frame of the map, and the node that it runs. -/
def eachFrame : NodeFrame := ⟨"each", some "names", ⟨.fail, none, none, ["names"], []⟩⟩

def eachTask (frame : GraphFrame) (nodes : List (String × GraphNode)) : GraphNode :=
  .subgraph ⟨"each.node", none, ⟨.fail, none, none, [], []⟩⟩ ⟨[], [("result", "result")], []⟩ frame
    nodes

/-- The graph that the map is compiled to, given the one inside. -/
def roundGraph (frame : GraphFrame) (nodes : List (String × GraphNode)) : Graph where
  frame :=
    { name := "round"
      table := ⟨"each", [("each", .direct .finish)], [], []⟩
      shape := ⟨[("letters", ⟨.any, .overwrite, [], .input⟩),
        ("names", ⟨.list, .append, ["each"], .implicit⟩)]⟩
      config := .standard
      store := some .memory }
  nodes := [("each", .map eachFrame ⟨"letters", "letter", "names", none⟩ (eachTask frame nodes))]

/-- The graph that asks for nothing. -/
def quietFrame : GraphFrame where
  name := "child"
  table := ⟨"work", [("work", .direct .finish)], [], []⟩
  shape := ⟨[("result", ⟨.any, .overwrite, ["work"], .output⟩)]⟩
  config := .standard
  store := some .memory

def quietNodes : List (String × GraphNode) :=
  [("work", .leaf ⟨"work", some "result", ⟨.fail, none, none, ["result"], []⟩⟩
    (.transform ⟨.task ⟨"work", ⟨"only", none⟩, none⟩, [], [], "result", none⟩))]

/-- A visit with one letter. -/
def roundVisit : Visit :=
  ⟨.ofFields [("letters", .list [.text "a"])], ⟨"t", .standard⟩, none, false⟩

/-- An activity that is confined and waits for its tasks comes to the same in a world as in turn. -/
theorem Activity.Patient.run_eq_inTurn {α H : Type} {P : Store → Prop} {O T : String → Prop}
    {post : α → Prop} {Sound : Storage → Prop} {held : Storage → String → H} {p : Activity α}
    (hp : p.Patient) (hc : p.Confined P O post)
    (hkeeps : ∀ kept, P kept → kept.KeepsApart T Sound held)
    (hthreads : ∀ thread, O thread → T thread) (host : Host Unit) {w : World Unit}
    (hidle : w.crew.strands = []) (hw : Sound w.storage) :
    (p.run host w).1 = (p.inTurn host none w.storage).result := by
  obtain ⟨⟨_, _, hschedule⟩, _⟩ := hp.run host hidle
  obtain ⟨_, hend⟩ := hc.every_schedule_apart hkeeps hthreads hw hschedule
  exact (hend _ rfl).1

theorem quietTask_not_halts : ¬ (eachTask quietFrame quietNodes).Halts := by
  intro h
  cases h with
  | subgraph _ _ _ hp h =>
    rw [List.mem_singleton.1 hp] at h
    cases h

end WorkflowGraph
