import WorkflowGraph.Proofs.Compiler.Assemble
import WorkflowGraph.Proofs.Graph.Calls
import WorkflowGraph.Proofs.Shape.Drafting

/-!
# How assembled graphs are wired

What is needed of a graph to follow a value on its way in: all graphs inside it keep their
checkpoints in one store, every node stands under its own id, and what an interrupt is resumed with
overwrites its field (`GraphNode.Wired`). Assembled graphs are wired so at every depth
(`Compiler.wired_of_assemble`). What a declared node is compiled to is said once, kind by kind
(`Compiler.CompiledAs`).
-/

set_option autoImplicit false

namespace WorkflowGraph

/-- How a graph is wired: it keeps its checkpoints in a store, has every node under its own id,
and overwrites what an interrupt is resumed with. -/
structure GraphNode.Wired (store : Option Store) (g : GraphFrame)
    (nodes : List (String × GraphNode)) : Prop where
  store : g.store = store
  ids : ∀ id node, (id, node) ∈ nodes → node.frame.id = id
  overwrites : ∀ id frame n, (id, GraphNode.leaf frame (.interrupt n)) ∈ nodes →
    g.shape.merge n.resumeKey = .overwrite

/-- Whether a graph has a property, and all graphs inside its nodes have it as well. -/
structure Graph.Everywhere (P : GraphFrame → List (String × GraphNode) → Prop) (g : Graph) :
    Prop where
  here : P g.frame g.nodes
  inside : ∀ p ∈ g.nodes, p.2.EveryGraph P

theorem Graph.Everywhere.mono {P Q : GraphFrame → List (String × GraphNode) → Prop} {g : Graph}
    (h : g.Everywhere P) (hPQ : ∀ frame nodes, P frame nodes → Q frame nodes) : g.Everywhere Q :=
  ⟨hPQ _ _ h.here, fun p hp => (h.inside p hp).mono hPQ⟩

namespace Compiler

variable {c : Compiler} {inner : Inner} {env : Surroundings}

theorem exists_of_mem_nodesOf {nodes : List NodeDecl} {id : String} {made : GraphNode}
    (h : (id, made) ∈ (c.nodesOf inner env nodes).1) :
    ∃ n ∈ nodes, n.id = id ∧
      (c.nodeOf inner env n.id n.options (isSkipped env n) n.kind).made = some made := by
  induction nodes with
  | nil => cases h
  | cons n rest ih =>
    unfold nodesOf at h
    dsimp only at h
    rcases List.mem_append.1 h with h | h
    · obtain ⟨first, hfirst, hpair⟩ := List.mem_map.1 h
      cases hpair
      exact ⟨n, List.mem_cons_self, rfl, Option.mem_toList.1 hfirst⟩
    · obtain ⟨m, hm, hid, hmade⟩ := ih h
      exact ⟨m, List.mem_cons_of_mem _ hm, hid, hmade⟩

/-- A node of a linked graph has been compiled from one with its id. -/
theorem Linked.exists_of_lookup? {store : Option Store} {stack : SourceStack} {d : Definition}
    {g : Graph} (h : Linked c inner store stack d g) {id : String} {made : GraphNode}
    (hmade : GraphNode.lookup? g.nodes id = some made) :
    ∃ n ∈ d.nodes, n.id = id ∧
      (c.nodeOf inner ⟨d, some g.frame.table, (c.bindTools d.tools).1, stack⟩ n.id n.options
        (isSkipped ⟨d, some g.frame.table, (c.bindTools d.tools).1, stack⟩ n) n.kind).made =
        some made := by
  have hmem := GraphNode.mem_of_lookup? hmade
  rw [h.nodes] at hmem
  exact exists_of_mem_nodesOf hmem

theorem Linked.exists_lookup? {store : Option Store} {stack : SourceStack} {d : Definition}
    {g : Graph} {below : Nat} (hd : d.faults = [])
    (h : Linked c (c.innerAt store below) store stack d g) {id : String} (hid : id ∈ d.nodeIds) :
    ∃ made, GraphNode.lookup? g.nodes id = some made := by
  apply Option.isSome_iff_exists.1
  apply GraphNode.isSome_lookup?
  rw [nodeIds_of_linked hd h]
  exact hid

theorem exists_of_made_map {α β : Type} {f : α → β} {s : Staged α} {b : β}
    (h : (s.map f).made = some b) : ∃ a, s.made = some a ∧ f a = b :=
  Option.map_eq_some_iff.1 h

theorem exists_of_transformOf {id : String} {options : NodeOptions} {spec : TransformSpec}
    {a : Action} (h : (c.transformOf env ⟨id, .transform spec, options⟩ spec).made = some a) :
    ∃ node, a = .transform node ∧ options.output = some node.output := by
  unfold transformOf at h
  dsimp only at h
  split at h
  · split at h
    · obtain ⟨output, houtput, rfl⟩ := Option.map_eq_some_iff.1 h
      exact ⟨_, rfl, houtput⟩
    · cases h
  · split at h
    · obtain ⟨output, houtput, rfl⟩ := Option.map_eq_some_iff.1 h
      exact ⟨_, rfl, houtput⟩
    · cases h
  · cases h

theorem exists_of_routerOf {id : String} {options : NodeOptions} {spec : RouterSpec} {a : Action}
    (h : (c.routerOf env ⟨id, .router spec, options⟩ spec).made = some a) :
    ∃ node, a = .router node ∧ node.field = options.output.getD (id ++ "_route") := by
  unfold routerOf at h
  dsimp only at h
  split at h
  · obtain ⟨binding, _, rfl⟩ := exists_of_made_map h
    exact ⟨_, rfl, rfl⟩
  · cases h
    exact ⟨_, rfl, rfl⟩
  · cases h

theorem exists_of_interruptOf {id : String} {options : NodeOptions} {spec : InterruptSpec}
    {skip : Bool} {a : Action}
    (h : (c.interruptOf env ⟨id, .interrupt spec, options⟩ spec skip).made = some a) :
    ∃ node, a = .interrupt node ∧ node.output = options.output.getD (id ++ "_message") ∧
      node.resumeKey = spec.resumeKey := by
  unfold interruptOf at h
  dsimp only at h
  split at h
  · cases h
    exact ⟨_, rfl, rfl, rfl⟩
  · split at h
    · cases h
      exact ⟨_, rfl, rfl, rfl⟩
    · cases h
  · cases h

/-- What a declared node may be compiled to. Of a node with an action, this says which fields it
writes, what it is resumed with and how many turns it takes. -/
inductive CompiledAs (c : Compiler) (inner : Inner) (env : Surroundings) :
    String → NodeOptions → Bool → NodeKind → GraphNode → Prop where
  | map {id : String} {options : NodeOptions} {skip : Bool} (spec : MapSpec)
    {innerOptions : NodeOptions} {kind : NodeKind} {below : GraphNode}
    (h : CompiledAs c inner env (NodeDecl.innerId id) innerOptions false kind below) :
    CompiledAs c inner env id options skip (.map spec innerOptions kind)
      (.map (frameOf ⟨id, .map spec innerOptions kind, options⟩ skip) spec below)
  | subgraph {id : String} {options : NodeOptions} {skip : Bool} {spec : SubgraphSpec} {g : Graph}
    (h : (inner env ⟨id, .subgraph spec, options⟩ spec).made = some g) :
    CompiledAs c inner env id options skip (.subgraph spec)
      (.subgraph (frameOf ⟨id, .subgraph spec, options⟩ skip)
        ⟨spec.inputMapping, spec.outputMapping, spec.interruptMapping⟩ g.frame g.nodes)
  | transform {id : String} {options : NodeOptions} {skip : Bool} (spec : TransformSpec)
    {node : TransformNode} (houtput : options.output = some node.output) :
    CompiledAs c inner env id options skip (.transform spec)
      (.leaf (frameOf ⟨id, .transform spec, options⟩ skip) (.transform node))
  | router {id : String} {options : NodeOptions} {skip : Bool} (spec : RouterSpec)
    {node : RouterNode} (hfield : node.field = options.output.getD (id ++ "_route")) :
    CompiledAs c inner env id options skip (.router spec)
      (.leaf (frameOf ⟨id, .router spec, options⟩ skip) (.router node))
  | agent {id : String} {options : NodeOptions} {skip : Bool} (spec : AgentSpec)
    {node : AgentNode} (houtput : node.output = options.output)
    (hmessages :
      node.messagesField = spec.messagesField.getD env.definition.defaults.messagesField)
    (hturns : node.maxIterations =
      spec.maxIterations.getD env.definition.defaults.maxIterations) :
    CompiledAs c inner env id options skip (.agent spec)
      (.leaf (frameOf ⟨id, .agent spec, options⟩ skip) (.agent node))
  | interrupt {id : String} {options : NodeOptions} {skip : Bool} (spec : InterruptSpec)
    {node : InterruptNode} (houtput : node.output = options.output.getD (id ++ "_message"))
    (hresumeKey : node.resumeKey = spec.resumeKey) :
    CompiledAs c inner env id options skip (.interrupt spec)
      (.leaf (frameOf ⟨id, .interrupt spec, options⟩ skip) (.interrupt node))
  | passthrough {id : String} {options : NodeOptions} {skip : Bool} (spec : PassthroughSpec) :
    CompiledAs c inner env id options skip (.passthrough spec)
      (.leaf (frameOf ⟨id, .passthrough spec, options⟩ skip) (.passthrough spec))

/-- **What `nodeOf` makes, kind by kind.** By induction on the kind, through the nodes inside
maps. -/
theorem compiledAs_of_nodeOf {id : String} {options : NodeOptions} {skip : Bool} {kind : NodeKind}
    {made : GraphNode} (h : (c.nodeOf inner env id options skip kind).made = some made) :
    CompiledAs c inner env id options skip kind made := by
  induction kind generalizing id options skip made with
  | map spec innerOptions kind ih =>
    obtain ⟨below, hbelow, rfl⟩ := exists_of_made_map h
    exact .map spec (ih hbelow)
  | subgraph spec =>
    obtain ⟨g, hg, rfl⟩ := exists_of_made_map h
    exact .subgraph hg
  | transform spec =>
    obtain ⟨a, ha, rfl⟩ := exists_of_made_map h
    obtain ⟨node, rfl, houtput⟩ := exists_of_transformOf ha
    exact .transform spec houtput
  | router spec =>
    obtain ⟨a, ha, rfl⟩ := exists_of_made_map h
    obtain ⟨node, rfl, hfield⟩ := exists_of_routerOf ha
    exact .router spec hfield
  | agent spec =>
    obtain ⟨a, ha, rfl⟩ := exists_of_made_map h
    obtain ⟨binding, _, rfl⟩ := exists_of_made_map ha
    exact .agent spec rfl rfl rfl
  | interrupt spec =>
    obtain ⟨a, ha, rfl⟩ := exists_of_made_map h
    obtain ⟨node, rfl, houtput, hresumeKey⟩ := exists_of_interruptOf ha
    exact .interrupt spec houtput hresumeKey
  | passthrough spec =>
    cases h
    exact .passthrough spec

/-- A compiled node stands in the frame of its declaration. -/
theorem frame_of_nodeOf {id : String} {options : NodeOptions} {skip : Bool} {kind : NodeKind}
    {made : GraphNode} (h : (c.nodeOf inner env id options skip kind).made = some made) :
    made.frame = frameOf ⟨id, kind, options⟩ skip := by
  cases compiledAs_of_nodeOf h <;> rfl

/-- Without cycles, and where nothing says that nodes are executed again, every node is skipped by
its outputs. -/
theorem Linked.skipFields_of_lookup? {store : Option Store} {stack : SourceStack} {d : Definition}
    {g : Graph} (h : Linked c inner store stack d g) (hacyclic : g.frame.table.cycles = [])
    (hdefault : d.defaults.skipIfExists = true)
    (hoptions : ∀ n ∈ d.nodes, n.options.skipIfExists ≠ some false) {id : String}
    {made : GraphNode} (hmade : GraphNode.lookup? g.nodes id = some made) :
    ∃ n ∈ d.nodes, n.id = id ∧
      (c.nodeOf inner ⟨d, some g.frame.table, (c.bindTools d.tools).1, stack⟩ n.id n.options true
        n.kind).made = some made ∧
      made.frame.policy.skipFields = settledFields n := by
  obtain ⟨n, hn, rfl, hnode⟩ := h.exists_of_lookup? hmade
  have hskip : isSkipped ⟨d, some g.frame.table, (c.bindTools d.tools).1, stack⟩ n = true := by
    unfold isSkipped TransitionTable.inCycle
    rw [Option.any_some, hacyclic, hdefault]
    cases hoption : n.options.skipIfExists with
    | none => rfl
    | some explicit =>
      cases explicit with
      | false => exact absurd hoption (hoptions n hn)
      | true => rfl
  rw [hskip] at hnode
  refine ⟨n, hn, rfl, hnode, ?_⟩
  rw [frame_of_nodeOf hnode]
  rfl

theorem frame_id_of_nodeOf {id : String} {options : NodeOptions} {skip : Bool} {kind : NodeKind}
    {made : GraphNode} (h : (c.nodeOf inner env id options skip kind).made = some made) :
    made.frame.id = id := by
  rw [frame_of_nodeOf h]
  rfl

/-- A compiled interrupt has been declared, with the same resume key. -/
theorem interrupt_of_nodeOf {id : String} {options : NodeOptions} {skip : Bool}
    {kind : NodeKind} {frame : NodeFrame} {n : InterruptNode}
    (h : (c.nodeOf inner env id options skip kind).made = some (.leaf frame (.interrupt n))) :
    ∃ spec, kind = .interrupt spec ∧ n.resumeKey = spec.resumeKey := by
  cases compiledAs_of_nodeOf h with
  | interrupt spec _ hresumeKey => exact ⟨spec, rfl, hresumeKey⟩

/-- A compiled map has been declared, and so has the node inside it. -/
theorem map_of_nodeOf {id : String} {options : NodeOptions} {skip : Bool} {kind : NodeKind}
    {frame : NodeFrame} {spec : MapSpec} {below : GraphNode}
    (h : (c.nodeOf inner env id options skip kind).made = some (.map frame spec below)) :
    ∃ innerOptions innerKind, kind = .map spec innerOptions innerKind ∧
      CompiledAs c inner env (NodeDecl.innerId id) innerOptions false innerKind below := by
  cases compiledAs_of_nodeOf h with
  | map _ hbelow => exact ⟨_, _, rfl, hbelow⟩

/-- The graphs inside a compiled node are those that its subgraphs have been made of. By induction
through the nodes inside maps. -/
theorem CompiledAs.everyGraph {P : GraphFrame → List (String × GraphNode) → Prop}
    (hinner : ∀ node spec g, (inner env node spec).made = some g → g.Everywhere P)
    {kind : NodeKind} {id : String} {options : NodeOptions} {skip : Bool} {made : GraphNode}
    (h : CompiledAs c inner env id options skip kind made) : made.EveryGraph P := by
  induction h with
  | map spec h ih => exact .map _ _ ih
  | subgraph hg =>
    have heverywhere := hinner _ _ _ hg
    exact .subgraph _ _ heverywhere.here heverywhere.inside
  | _ => exact .leaf _ _

/-- A graph inside a subgraph has been assembled from the definition that the subgraph leads to, on
the same store, once its key has been entered. -/
theorem exists_of_innerAt {store : Option Store} {depth : Nat} {node : NodeDecl}
    {spec : SubgraphSpec} {g : Graph} (h : (c.innerAt store depth env node spec).made = some g) :
    ∃ key child stack, c.subgraphSource env node spec = .ok (key, .ok child) ∧
      env.stack.enter key = .ok stack ∧ c.assemble store depth stack child = .ok g := by
  unfold innerAt at h
  split at h
  · cases h
  · next key parsed hsource =>
    split at h
    · cases h
    · next stack hstack =>
      cases parsed with
      | error es => cases h
      | ok child =>
        dsimp only at h
        cases hmade : c.assemble store depth stack child with
        | error es =>
          rw [hmade] at h
          cases h
        | ok made =>
          rw [hmade] at h
          cases h
          exact ⟨key, child, stack, hsource, hstack, hmade⟩

theorem assemble_of_innerAt {store : Option Store} {depth : Nat} {node : NodeDecl}
    {spec : SubgraphSpec} {g : Graph} (h : (c.innerAt store depth env node spec).made = some g) :
    ∃ stack d, c.assemble store depth stack d = .ok g := by
  obtain ⟨key, child, stack, _, _, hassemble⟩ := exists_of_innerAt h
  exact ⟨stack, child, hassemble⟩

theorem Linked.wired {store : Option Store} {stack : SourceStack} {d : Definition} {g : Graph}
    (h : Linked c inner store stack d g) : GraphNode.Wired store g.frame g.nodes := by
  refine ⟨h.store, ?_, ?_⟩
  · intro id node hmem
    rw [h.nodes] at hmem
    obtain ⟨n, _, rfl, hmade⟩ := exists_of_mem_nodesOf hmem
    exact frame_id_of_nodeOf hmade
  · intro id frame n hmem
    rw [h.nodes] at hmem
    obtain ⟨decl, hdecl, _, hmade⟩ := exists_of_mem_nodesOf hmem
    obtain ⟨spec, hkind, hkey⟩ := interrupt_of_nodeOf hmade
    have huse : FieldUse.implicit spec.resumeKey .any .overwrite decl.id ∈ d.uses := by
      apply List.mem_append_left
      refine List.mem_flatMap.2 ⟨decl, hdecl, ?_⟩
      rw [hkind]
      simp [NodeDecl.uses]
    rw [hkey]
    exact StateShape.merge_of_infer h.shape huse rfl

/-- What holds of every graph that is linked from a valid definition holds at every depth of an
assembled one. By induction on the depth. -/
theorem everywhere_of_valid {store : Option Store}
    {P : GraphFrame → List (String × GraphNode) → Prop}
    (hlinked : ∀ {below : Nat} {stack : SourceStack} {d : Definition} {g : Graph}, d.faults = [] →
      Linked c (c.innerAt store below) store stack d g → P g.frame g.nodes)
    {depth : Nat} {stack : SourceStack} {d : Definition} {g : Graph}
    (h : c.assemble store depth stack d = .ok g) : g.Everywhere P := by
  induction depth generalizing stack d g with
  | zero => cases h
  | succ depth ih =>
    obtain ⟨hd, below, hbelow, hlink⟩ := linked_of_assemble h
    cases hbelow
    refine ⟨hlinked hd hlink, fun p hp => ?_⟩
    rw [hlink.nodes] at hp
    obtain ⟨n, _, _, hmade⟩ := exists_of_mem_nodesOf hp
    refine (compiledAs_of_nodeOf hmade).everyGraph ?_
    intro node spec g hg
    obtain ⟨stack, child, hassemble⟩ := assemble_of_innerAt hg
    exact ih hassemble

theorem everywhere_of_assemble {store : Option Store}
    {P : GraphFrame → List (String × GraphNode) → Prop}
    (hlinked : ∀ {below : Nat} {stack : SourceStack} {d : Definition} {g : Graph},
      Linked c (c.innerAt store below) store stack d g → P g.frame g.nodes)
    {depth : Nat} {stack : SourceStack} {d : Definition} {g : Graph}
    (h : c.assemble store depth stack d = .ok g) : g.Everywhere P :=
  everywhere_of_valid (fun _ => hlinked) h

/-- **Assembled graphs are wired at every depth.** -/
theorem wired_of_assemble {store : Option Store} {depth : Nat} {stack : SourceStack}
    {d : Definition} {g : Graph} (h : c.assemble store depth stack d = .ok g) :
    g.Everywhere (GraphNode.Wired store) :=
  everywhere_of_assemble (fun hlinked => hlinked.wired) h

end Compiler

end WorkflowGraph
