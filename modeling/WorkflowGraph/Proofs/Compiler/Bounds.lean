import WorkflowGraph.Proofs.Compiler.Uninterrupted
import WorkflowGraph.Proofs.Graph.Retry

/-!
# The bounds of compiled graphs

A bound that is written down is refused where it is zero: the limit of a loop, the number of turns
of an agent, the number of tasks of a map. So every bound of a compiled graph is positive, unless
it is inherited from a default, of which nothing is asked (`Compiler.Builds.bounds`). An agent
with a positive bound calls its executor as soon as it is executed
(`AgentNode.behaviour_asksExecutor`); one with the bound zero never does. A map has room for a
task whatever its bound is (`MapNode.exists_start`).
-/

set_option autoImplicit false

namespace WorkflowGraph

open Activity

/-! ## Limits of loops -/

namespace TransitionTable.MadeOf

variable {d : Definition} {table : TransitionTable}

/-- **The limit of a node is zero only as the default of a cycle that declares none.** -/
theorem limit_eq_zero_iff (hmade : MadeOf d table) (hd : d.faults = []) {id : String} {n : Nat}
    (h : table.limit? id = some n) :
    n = 0 ↔ d.defaults.loopLimit = some 0 ∧
      ∃ c ∈ table.cycles, id ∈ c ∧ ∀ m ∈ c, d.loopLimits.get? m = none := by
  have hnodup : table.cycles.flatten.Nodup := hmade.cycles ▸ nodup_cyclesOf d
  have hassigned := Definition.get?_of_assignLimits hnodup hmade.limits id
  rw [show table.limits.get? id = some n from h] at hassigned
  constructor
  · rintro rfl
    have hnone : d.loopLimits.get? id = none := by
      cases hdeclared : d.loopLimits.get? id with
      | none => rfl
      | some k =>
        rw [hdeclared, Option.some_or] at hassigned
        cases hassigned
        exact absurd (Definition.declared_pos hd hdeclared) (Nat.lt_irrefl 0)
    rw [hnone, Option.none_or] at hassigned
    have hmem : id ∈ table.cycles.flatten := by
      by_contra hnot
      rw [Definition.inheritedIn_of_not_mem hnot] at hassigned
      cases hassigned
    obtain ⟨c, hc, hid⟩ := List.mem_flatten.1 hmem
    rw [Definition.inheritedIn_of_mem (List.nodup_flatten.1 hnodup).2 hc hid] at hassigned
    rcases d.isLeast_or_forall_none c with ⟨k, hk⟩ | hall
    · rw [Definition.inheritedLimit?_of_isLeast hk] at hassigned
      cases hassigned
      obtain ⟨m, _, hdeclared⟩ := hk.1
      exact absurd (Definition.declared_pos hd hdeclared) (Nat.lt_irrefl 0)
    · rw [Definition.inheritedLimit?_of_forall_none hall] at hassigned
      exact ⟨hassigned.symm, c, hc, hid, hall⟩
  · rintro ⟨hdefault, c, hc, hid, hall⟩
    rw [hall id hid, Option.none_or,
      Definition.inheritedIn_of_mem (List.nodup_flatten.1 hnodup).2 hc hid,
      Definition.inheritedLimit?_of_forall_none hall, hdefault] at hassigned
    exact Option.some.inj hassigned

end TransitionTable.MadeOf

/-! ## Nodes and the nodes that they run for every item -/

/-- A compiled node, followed by the node that it runs for every item, and so on. -/
def GraphNode.nest : GraphNode → List GraphNode
  | .map frame spec inner => .map frame spec inner :: inner.nest
  | node => [node]

theorem Definition.nodeFaults_nest {d : Definition} (kind : NodeKind) {id : String}
    {options : NodeOptions} {inMap : Bool} (h : d.nodeFaults id options inMap kind = [])
    {decl : NodeDecl} (hdecl : decl ∈ NodeDecl.nest id options kind) :
    ∃ within, d.nodeFaults decl.id decl.options within decl.kind = [] := by
  induction kind generalizing id options inMap with
  | map spec innerOptions kind ih =>
    rcases List.mem_cons.1 hdecl with rfl | hdecl
    · exact ⟨inMap, h⟩
    · exact ih (List.append_eq_nil_iff.1 h).2 hdecl
  | _ =>
    obtain rfl := List.mem_singleton.1 hdecl
    exact ⟨inMap, h⟩

namespace Compiler

variable {c : Compiler} {inner : Inner} {env : Surroundings}

/-- Every node in a compiled one has been compiled from a declaration in the declared one. By
induction through the nodes inside maps. -/
theorem CompiledAs.exists_of_mem_nest {kind : NodeKind} {id : String} {options : NodeOptions}
    {skip : Bool} {made : GraphNode} (h : CompiledAs c inner env id options skip kind made)
    {node : GraphNode} (hnode : node ∈ made.nest) :
    ∃ decl ∈ NodeDecl.nest id options kind, ∃ skips,
      CompiledAs c inner env decl.id decl.options skips decl.kind node := by
  have hmade := h
  induction h with
  | map spec hbelow ih =>
    rcases List.mem_cons.1 hnode with rfl | hnode
    · exact ⟨_, List.mem_cons_self, _, hmade⟩
    · obtain ⟨decl, hdecl, hcompiled⟩ := ih hnode hbelow
      exact ⟨decl, List.mem_cons_of_mem _ hdecl, hcompiled⟩
  | _ =>
    obtain rfl := List.mem_singleton.1 hnode
    exact ⟨_, List.mem_singleton_self _, _, hmade⟩

end Compiler

/-! ## The bounds of a graph -/

/-- Where the bounds in a graph come from that a definition is compiled to, and which of them are
zero: only those that are inherited from a default that is zero. -/
structure Definition.Bounds (d : Definition) (frame : GraphFrame)
    (nodes : List (String × GraphNode)) : Prop where
  limits : ∀ id n, frame.table.limit? id = some n →
    (n = 0 ↔ d.defaults.loopLimit = some 0 ∧
      ∃ c ∈ frame.table.cycles, id ∈ c ∧ ∀ m ∈ c, d.loopLimits.get? m = none)
  agents : ∀ p ∈ nodes, ∀ f n, GraphNode.leaf f (.agent n) ∈ p.2.nest →
    ∃ decl ∈ d.allNodes, decl.id = f.id ∧ ∃ spec, decl.kind = .agent spec ∧
      n.maxIterations = spec.maxIterations.getD d.defaults.maxIterations ∧
      (n.maxIterations = 0 ↔ spec.maxIterations = none ∧ d.defaults.maxIterations = 0)
  maps : ∀ p ∈ nodes, ∀ f spec inner, GraphNode.map f spec inner ∈ p.2.nest →
    spec.maxConcurrency ≠ some 0

theorem Definition.maxIterations_ne_zero {d : Definition} {id : String} {spec : AgentSpec}
    (h : d.agentFaults id spec = []) : spec.maxIterations ≠ some 0 := by
  intro hzero
  unfold agentFaults at h
  rw [hzero] at h
  cases (List.append_eq_nil_iff.1 h).2

theorem Definition.maxConcurrency_ne_zero {id : String} {spec : MapSpec}
    (h : mapFaults id spec = []) : spec.maxConcurrency ≠ some 0 := by
  intro hzero
  unfold mapFaults at h
  rw [hzero] at h
  cases (List.append_eq_nil_iff.1 h).2

namespace Compiler

variable {c : Compiler}

/-- Whether a graph has been linked from a valid definition, on whatever store and whatever
definitions around it. -/
def Builds (c : Compiler) (d : Definition) (frame : GraphFrame)
    (nodes : List (String × GraphNode)) : Prop :=
  d.faults = [] ∧
    ∃ store below stack, Linked c (c.innerAt store below) store stack d ⟨frame, nodes⟩

/-- **The bounds of a graph that is linked from a valid definition.** -/
theorem Builds.bounds {d : Definition} {frame : GraphFrame} {nodes : List (String × GraphNode)}
    (h : c.Builds d frame nodes) : d.Bounds frame nodes := by
  obtain ⟨hd, store, below, stack, hlinked⟩ := h
  have hfaults := (Definition.faults_eq_nil_iff.1 hd).2.1
  -- A node in the graph has been compiled from a declaration without faults.
  have hdeclared : ∀ p ∈ nodes, ∀ node ∈ p.2.nest, ∃ id options kind,
      ⟨id, kind, options⟩ ∈ d.allNodes ∧
      (∃ within, d.nodeFaults id options within kind = []) ∧
      ∃ skips, CompiledAs c (c.innerAt store below) ⟨d, some frame.table, (c.bindTools d.tools).1,
        stack⟩ id options skips kind node := by
    intro p hp node hnode
    have hmem : p ∈ (⟨frame, nodes⟩ : Graph).nodes := hp
    rw [hlinked.nodes] at hmem
    obtain ⟨n, hn, _, hmade⟩ := exists_of_mem_nodesOf hmem
    obtain ⟨decl, hdecl, hskips⟩ := (compiledAs_of_nodeOf hmade).exists_of_mem_nest hnode
    exact ⟨decl.id, decl.options, decl.kind, List.mem_flatMap.2 ⟨n, hn, hdecl⟩,
      Definition.nodeFaults_nest n.kind (hfaults n hn) hdecl, hskips⟩
  refine ⟨fun id n hlimit => ?_, fun p hp f n hnode => ?_, fun p hp f spec inner hnode => ?_⟩
  · exact (TransitionTable.madeOf hlinked.table).limit_eq_zero_iff hd hlimit
  · obtain ⟨id, options, kind, hdecl, ⟨within, hnone⟩, skips, hcompiled⟩ := hdeclared p hp _ hnode
    cases hcompiled with
    | agent spec _ _ hturns =>
      refine ⟨_, hdecl, rfl, spec, rfl, hturns, ?_⟩
      have hexplicit := Definition.maxIterations_ne_zero hnone
      rw [hturns]
      cases hspec : spec.maxIterations with
      | none => simp
      | some k =>
        rw [hspec] at hexplicit
        simpa using hexplicit
  · obtain ⟨id, options, kind, _, ⟨within, hnone⟩, skips, hcompiled⟩ := hdeclared p hp _ hnode
    cases hcompiled with
    | map => exact Definition.maxConcurrency_ne_zero (List.append_eq_nil_iff.1 hnone).1

/-- A compiled graph is linked from its definition, and the graphs inside it from others. -/
theorem Makes.builds {g : CompiledGraph} (hg : c.Makes g) :
    c.Builds g.definition g.graph.frame g.graph.nodes ∧
      g.graph.Everywhere fun frame nodes => ∃ d, c.Builds d frame nodes := by
  obtain ⟨stack, text, h⟩ := hg.compileIn
  obtain ⟨store, assembled, config, _, hassembled, hgraph⟩ := assemble_of_compileIn h
  obtain ⟨hd, below, _, hlinked⟩ := linked_of_assemble hassembled
  have hinside : assembled.Everywhere fun frame nodes => ∃ d, c.Builds d frame nodes :=
    everywhere_of_valid (fun hd hlinked => ⟨_, hd, store, _, _, hlinked⟩) hassembled
  have hbuilt : c.Builds g.definition g.graph.frame g.graph.nodes := by
    rw [hgraph]
    exact ⟨hd, store, below, stack, hlinked.shape, hlinked.table, hlinked.store, hlinked.tools,
      hlinked.nodes, hlinked.errors⟩
  refine ⟨hbuilt, ⟨_, hbuilt⟩, ?_⟩
  rw [hgraph]
  exact hinside.inside

end Compiler

/-! ## What a bound allows -/

namespace Activity

variable {α β : Type}

/-- Whether an activity starts with the call of an executor. -/
def AsksExecutor : Activity α → Prop
  | .ask (.task _ _) _ => True
  | _ => False

theorem AsksExecutor.bind {p : Activity α} (h : p.AsksExecutor) (next : α → Activity β) :
    (p >>= next).AsksExecutor := by
  match p, h with
  | .ask (.task _ _) _, _ => exact trivial

theorem AsksExecutor.within {p : Activity α} (h : p.AsksExecutor) (budget : Nat) :
    (p.within budget).AsksExecutor := by
  match p, h with
  | .ask (.task _ _) _, _ => exact trivial

end Activity

theorem TaskBinding.call_asksExecutor (b : TaskBinding) (v : Visit) (r : TaskRequest) :
    (b.call v r).AsksExecutor :=
  trivial

/-- An execution that is due starts with a call of an executor if every attempt does. -/
theorem NodeFrame.Due.asksExecutor {f : NodeFrame} {s : State} {resume : Option Value}
    (h : f.Due s resume) {b : Behaviour} (hb : ∀ v, (b v).AsksExecutor) (scope : Scope) :
    (f.execute b s scope resume).AsksExecutor := by
  rw [h.execute, NodeFrame.attempts_eq]
  apply AsksExecutor.bind
  unfold NodeFrame.limited
  split
  · exact hb _
  · exact ((hb _).within _).bind _

namespace AgentNode

variable {n : AgentNode}

/-- An agent that may take a turn calls its executor at once. -/
theorem behaviour_asksExecutor (h : 0 < n.maxIterations) (id : String) (v : Visit) :
    (n.behaviour id v).AsksExecutor := by
  obtain ⟨turns, hturns⟩ := Nat.exists_eq_add_one_of_ne_zero h.ne'
  unfold behaviour
  dsimp only
  rw [hturns]
  exact ((n.binding.call_asksExecutor v _).bind _).bind _

/-- An agent that may take no turn calls nothing, and writes that nothing has been said. -/
theorem behaviour_of_zero (h : n.maxIterations = 0) (id : String) (v : Visit) :
    n.behaviour id v = pure (.of (.ok (.proceed (n.update ⟨[], ""⟩)))) := by
  unfold behaviour
  dsimp only
  rw [h]
  rfl

end AgentNode

/-- A map over items that has room for a task starts with all of its tasks, of which at least one
may be under way. -/
theorem MapNode.exists_start (n : MapNode) (id : String) (inner : Runner) {v : Visit}
    {items : List Value} (hitems : n.items id v.state = .ok items) (hne : items ≠ []) :
    ∃ slots count task rest, n.behaviour id inner v = .start slots count task rest ∧
      count = items.length ∧ slots = max 1 (n.limit v.scope items.length) := by
  unfold behaviour
  rw [hitems]
  cases items with
  | nil => exact absurd rfl hne
  | cons item more =>
    refine ⟨_, _, _, _, rfl, ?_, rfl⟩
    simp [indexed]

/-- **The bounds of a compiled graph.** In the graph and in every one inside it, a limit of a loop
is zero just where it is inherited from a default that is zero, and so is the number of turns of
an agent; no map has the bound zero. A node that is an agent calls an executor as soon as it is
executed if its bound is positive, and never if it is zero; a map has room for at least one task.
-/
theorem compiled_bounds (c : Compiler) {g : CompiledGraph} (hg : c.Makes g) :
    g.definition.Bounds g.graph.frame g.graph.nodes ∧
    (g.graph.Everywhere fun frame nodes => ∃ d, c.Builds d frame nodes ∧ d.Bounds frame nodes) ∧
    (∀ (f : NodeFrame) (n : AgentNode) (s : State) (scope : Scope) (resume : Option Value),
      (0 < n.maxIterations → f.Due s resume →
        ((GraphNode.leaf f (.agent n)).runner s scope resume).AsksExecutor) ∧
      (n.maxIterations = 0 → ∀ v,
        n.behaviour f.id v = pure (.of (.ok (.proceed (n.update ⟨[], ""⟩)))))) ∧
    ∀ (n : MapNode) (id : String) (inner : Runner) (v : Visit) (items : List Value),
      n.items id v.state = .ok items → items ≠ [] →
      ∃ slots count task rest, n.behaviour id inner v = .start slots count task rest ∧
        1 ≤ slots ∧ count = items.length := by
  obtain ⟨hbuilt, heverywhere⟩ := hg.builds
  refine ⟨hbuilt.bounds, ?_, fun f n s scope resume => ⟨fun hpos hdue =>
    hdue.asksExecutor (n.behaviour_asksExecutor hpos f.id) scope,
    fun hzero => n.behaviour_of_zero hzero f.id⟩, fun n id inner v items hitems hne => ?_⟩
  · obtain ⟨⟨d, hd⟩, hinside⟩ := heverywhere
    exact ⟨⟨d, hd, hd.bounds⟩, fun p hp =>
      (hinside p hp).mono fun frame nodes ⟨d, hd⟩ => ⟨d, hd, hd.bounds⟩⟩
  · obtain ⟨slots, count, task, rest, hstart, hcount, hslots⟩ := n.exists_start id inner hitems hne
    exact ⟨slots, count, task, rest, hstart, hslots ▸ Nat.le_max_left _ _, hcount⟩

/-! ## An agent that talks on -/

/-- The turns that an agent may take. -/
def GraphNode.turns? : GraphNode → Option Nat
  | .leaf _ (.agent n) => some n.maxIterations
  | _ => none

theorem GraphNode.exists_of_turns? {node : GraphNode} {turns : Nat} (h : node.turns? = some turns) :
    ∃ f n, node = .leaf f (.agent n) ∧ n.maxIterations = turns := by
  cases node with
  | leaf f action =>
    cases action with
    | agent n => exact ⟨f, n, rfl, Option.some.inj h⟩
    | _ => cases h
  | _ => cases h

/-- A definition with one agent, which goes on talking to itself, and with the given defaults. -/
def talkText (defaults : String) : String :=
  "name: talk
defaults: " ++ defaults ++ "
nodes: {ask: {type: agent, task: talk}}
edges: [{from: START, to: ask}, {from: ask, to: ask, condition: more}, {from: ask, to: END}]"

/-- Whether a graph has just this agent, which is due in the blank state, with a limit and a
number of turns. -/
def CompiledGraph.talks (limit turns : Nat) (g : CompiledGraph) : Bool :=
  g.graph.frame.table.limit? "ask" == some limit &&
    g.graph.nodes.any fun p => p.2.turns? == some turns && !p.2.frame.isSettled .blank &&
      p.2.frame.missing? .blank == none

theorem CompiledGraph.exists_of_talks {limit turns : Nat} {g : CompiledGraph}
    (h : g.talks limit turns = true) :
    g.graph.frame.table.limit? "ask" = some limit ∧
      ∃ id f n, (id, GraphNode.leaf f (.agent n)) ∈ g.graph.nodes ∧ n.maxIterations = turns ∧
        f.Due .blank none := by
  obtain ⟨hlimit, hagent⟩ := (Bool.and_eq_true _ _).mp h
  refine ⟨beq_iff_eq.1 hlimit, ?_⟩
  obtain ⟨⟨id, node⟩, hmem, hnode⟩ := List.any_eq_true.1 hagent
  obtain ⟨hnode, hready⟩ := (Bool.and_eq_true _ _).mp hnode
  obtain ⟨hturns, hsettled⟩ := (Bool.and_eq_true _ _).mp hnode
  obtain ⟨f, n, rfl, hn⟩ := GraphNode.exists_of_turns? (beq_iff_eq.1 hturns)
  refine ⟨id, f, n, hmem, hn, ?_, beq_iff_eq.1 hready⟩
  simpa [GraphNode.frame] using hsettled

/-- With positive defaults, the agent calls its executor as soon as it is executed. -/
theorem talk_text_bounds :
    ∃ g, oneExecutor.compile (talkText "{loop_limit: 2, max_iterations: 1}") = .ok g ∧
      g.graph.frame.table.limit? "ask" = some 2 ∧
      g.definition.Bounds g.graph.frame g.graph.nodes ∧
      ∃ id f n, (id, GraphNode.leaf f (.agent n)) ∈ g.graph.nodes ∧
        ∀ scope, ((GraphNode.leaf f (.agent n)).runner .blank scope none).AsksExecutor := by
  have htalks : (oneExecutor.compile (talkText "{loop_limit: 2, max_iterations: 1}")).toOption.any
      (CompiledGraph.talks 2 1) = true := by
    decide +kernel
  cases hg : oneExecutor.compile (talkText "{loop_limit: 2, max_iterations: 1}") with
  | error errors =>
    rw [hg] at htalks
    cases htalks
  | ok g =>
    rw [hg] at htalks
    obtain ⟨hlimit, id, f, n, hmem, hturns, hdue⟩ := CompiledGraph.exists_of_talks htalks
    obtain ⟨hbounds, _, hagents, _⟩ := compiled_bounds oneExecutor (.text _ hg)
    refine ⟨g, rfl, hlimit, hbounds, id, f, n, hmem, fun scope => ?_⟩
    exact (hagents f n .blank scope none).1 (by rw [hturns]; exact Nat.one_pos) hdue

/-- Zero defaults are compiled, to a loop with the limit zero and an agent without turns. -/
theorem talk_text_without_bounds :
    ∃ g, oneExecutor.compile (talkText "{loop_limit: 0, max_iterations: 0}") = .ok g ∧
      g.graph.frame.table.limit? "ask" = some 0 ∧
      ∃ id f n, (id, GraphNode.leaf f (.agent n)) ∈ g.graph.nodes ∧ n.maxIterations = 0 := by
  have htalks : (oneExecutor.compile (talkText "{loop_limit: 0, max_iterations: 0}")).toOption.any
      (CompiledGraph.talks 0 0) = true := by
    decide +kernel
  cases hg : oneExecutor.compile (talkText "{loop_limit: 0, max_iterations: 0}") with
  | error errors =>
    rw [hg] at htalks
    cases htalks
  | ok g =>
    rw [hg] at htalks
    obtain ⟨hlimit, id, f, n, hmem, hturns, _⟩ := CompiledGraph.exists_of_talks htalks
    exact ⟨g, rfl, hlimit, id, f, n, hmem, hturns⟩

end WorkflowGraph
