import WorkflowGraph.Proofs.Compiler.Nesting

/-!
# Ways into a compiled graph

The graphs inside a compiled graph stand at the ends of ways through its subgraphs
(`Compiler.Within`), each of which has the keys of the sources on it. None of them is there twice
(`Compiler.nodup_of_within`). With the finitely many steps of compilation, the exact reports of
definitions that enclose themselves and the one stack that is left as it was found, this is how
definitions are compiled inside one another (`nested_definitions_compile`).
-/

set_option autoImplicit false

namespace WorkflowGraph

/-- The graph inside a node, looking through maps. -/
def GraphNode.graph? : GraphNode → Option Graph
  | .leaf _ _ => none
  | .map _ _ inner => inner.graph?
  | .subgraph _ _ g nodes => some ⟨g, nodes⟩

namespace Compiler

variable {c : Compiler} {store : Option Store} {depth : Nat}

/-- Whether a graph stands in another one at the end of a way through subgraphs, and which keys lie
on the way: those around the other graph first, then those of the subgraphs. The nodes of a graph
stand in the order in which they are declared. -/
inductive Within (c : Compiler) (around : List String) (d : Definition) (g : Graph) :
    List String → Definition → Graph → Prop where
  | here : Within c around d g around d g
  | inside {keys : List String} {outer child : Definition} {graph inner : Graph}
    (h : Within c around d g keys outer graph) {n node : NodeDecl} {spec : SubgraphSpec}
    {p : String × GraphNode} (hp : (n, p) ∈ outer.nodes.zip graph.nodes)
    (hsubgraph : NodeDecl.subgraph? n.id n.options n.kind = some (node, spec))
    (hinner : p.2.graph? = some inner) {key : String}
    (hsource : c.subgraphSource (c.surroundings ⟨keys⟩ outer) node spec = .ok (key, .ok child)) :
    Within c around d g (keys ++ [key]) child inner

variable {inner : Inner} {env : Surroundings}

/-- The graph in a compiled node is that of the subgraph in its declaration. By induction through
the nodes inside maps. -/
theorem CompiledAs.graph?_eq {kind : NodeKind} {id : String} {options : NodeOptions} {skip : Bool}
    {made : GraphNode} (h : CompiledAs c inner env id options skip kind made) :
    made.graph? = (NodeDecl.subgraph? id options kind).bind fun p => (inner env p.1 p.2).made := by
  induction h with
  | map spec h ih => exact ih
  | subgraph hg => exact hg.symm
  | _ => rfl

/-- Where every node is compiled to something, this stands in the place of its declaration. -/
theorem mem_zip_nodesOf_iff {nodes : List NodeDecl}
    (hmade : ∀ n ∈ nodes,
      ((c.nodeOf inner env n.id n.options (isSkipped env n) n.kind).made).isSome)
    {n : NodeDecl} {p : String × GraphNode} :
    (n, p) ∈ nodes.zip (c.nodesOf inner env nodes).1 ↔ n ∈ nodes ∧ p.1 = n.id ∧
      (c.nodeOf inner env n.id n.options (isSkipped env n) n.kind).made = some p.2 := by
  induction nodes with
  | nil => simp
  | cons first rest ih =>
    obtain ⟨hfirst, hrest⟩ := List.forall_mem_cons.1 hmade
    obtain ⟨made, hfirst⟩ := Option.isSome_iff_exists.1 hfirst
    unfold nodesOf
    dsimp only
    rw [hfirst, Option.toList_some, List.map_singleton, List.singleton_append, List.zip_cons_cons,
      List.mem_cons, ih hrest, List.mem_cons, Prod.mk.injEq]
    constructor
    · rintro (⟨rfl, rfl⟩ | ⟨hn, hp⟩)
      · exact ⟨.inl rfl, rfl, hfirst⟩
      · exact ⟨.inr hn, hp⟩
    · rintro ⟨rfl | hn, hid, hp⟩
      · rw [hfirst] at hp
        cases hp
        exact .inl ⟨rfl, Prod.ext hid rfl⟩
      · exact .inr ⟨hn, hid, hp⟩

variable {stack : SourceStack} {d : Definition} {g : Graph} {below : Nat}

theorem Linked.surroundings_eq (h : Linked c inner store stack d g) :
    c.surroundings stack d = ⟨d, some g.frame.table, (c.bindTools d.tools).1, stack⟩ := by
  unfold surroundings
  rw [h.table]
  rfl

/-- The nodes of a linked graph stand in the places of their declarations. -/
theorem Linked.mem_zip_iff (hd : d.faults = [])
    (h : Linked c (c.innerAt store below) store stack d g) {n : NodeDecl} {p : String × GraphNode} :
    (n, p) ∈ d.nodes.zip g.nodes ↔ n ∈ d.nodes ∧ p.1 = n.id ∧
      (c.nodeOf (c.innerAt store below) (c.surroundings stack d) n.id n.options
        (isSkipped (c.surroundings stack d) n) n.kind).made = some p.2 := by
  have herrors := h.errors
  have hnodes := h.nodes
  rw [← h.surroundings_eq] at herrors hnodes
  rw [hnodes]
  refine mem_zip_nodesOf_iff fun n hn => ?_
  refine nodeOf_complete (innerAt_complete c store below)
    (fun name hname => isSome_get?_bindTools h.tools hname) n.kind
    ((Definition.faults_eq_nil_iff.1 hd).2.1 n hn) (List.eq_nil_iff_forall_not_mem.2 fun e he => ?_)
  have hmem := mem_errors_nodesOf_iff.2 ⟨n, hn, he⟩
  rw [herrors] at hmem
  cases hmem

/-- **No key lies twice on a way into an assembled graph**, and every graph on the way has been
assembled below the keys that lead to it. By induction on the way. -/
theorem nodup_of_within {around keys : List String} {d' : Definition} {g g' assembled : Graph}
    (haround : around.Nodup) (h : c.assemble store depth ⟨around⟩ d = .ok assembled)
    (hnodes : assembled.nodes = g.nodes) (hwithin : c.Within around d g keys d' g') :
    keys.Nodup ∧ ∃ depth assembled, c.assemble store depth ⟨keys⟩ d' = .ok assembled ∧
      assembled.nodes = g'.nodes := by
  induction hwithin with
  | here => exact ⟨haround, depth, assembled, h, hnodes⟩
  | @inside keys outer child graph inner _ n node spec p hp hsubgraph hinner key hsource ih =>
    obtain ⟨hnodup, depth, assembled, hassembled, hgraph⟩ := ih
    obtain ⟨hvalid, below, rfl, hlinked⟩ := linked_of_assemble hassembled
    rw [← hgraph] at hp
    obtain ⟨_, _, hmade⟩ := (hlinked.mem_zip_iff hvalid).1 hp
    have hinside := (compiledAs_of_nodeOf hmade).graph?_eq
    rw [hinner, hsubgraph] at hinside
    obtain ⟨key', child', entered, hsource', hentered, hchild⟩ := exists_of_innerAt hinside.symm
    rw [hsource] at hsource'
    cases hsource'
    obtain ⟨hnew, hkeys⟩ := SourceStack.keys_of_enter hentered
    have hstack : entered = ⟨keys ++ [key]⟩ := congrArg SourceStack.mk hkeys
    rw [hstack] at hchild
    refine ⟨List.nodup_append.2 ⟨hnodup, List.nodup_singleton key, ?_⟩, below, inner, hchild, rfl⟩
    intro a ha b hb hab
    rw [List.mem_singleton.1 hb] at hab
    exact hnew (hab ▸ ha)

/-- Every graph inside an assembled one stands at the end of a way into it. -/
theorem Within.exists_inside {around keys : List String} {d' : Definition}
    {g g' assembled : Graph} (hwithin : c.Within around d g keys d' g')
    (h : c.assemble store depth ⟨keys⟩ d' = .ok assembled) (hnodes : assembled.nodes = g'.nodes)
    {p : String × GraphNode} (hp : p ∈ g'.nodes) {inner : Graph} (hinner : p.2.graph? = some inner) :
    ∃ key child, c.Within around d g (keys ++ [key]) child inner := by
  obtain ⟨hvalid, below, rfl, hlinked⟩ := linked_of_assemble h
  have hmem := hp
  have hlinkedNodes := hlinked.nodes
  rw [← hlinked.surroundings_eq] at hlinkedNodes
  rw [← hnodes, hlinkedNodes] at hmem
  obtain ⟨n, hn, hid, hmade⟩ := exists_of_mem_nodesOf hmem
  have hzip : (n, p) ∈ d'.nodes.zip g'.nodes := by
    rw [← hnodes]
    exact (hlinked.mem_zip_iff hvalid).2 ⟨hn, hid.symm, hmade⟩
  have hinside := (compiledAs_of_nodeOf hmade).graph?_eq
  rw [hinner] at hinside
  obtain ⟨⟨node, spec⟩, hsubgraph, hinside⟩ := Option.bind_eq_some_iff.1 hinside.symm
  obtain ⟨key, child, entered, hsource, _⟩ := exists_of_innerAt hinside
  exact ⟨key, child, .inside hwithin hzip hsubgraph hinner hsource⟩

/-! ## Compiling a text -/

/-- Whether a result is that of compiling a text: on its own, or as the source that a reference leads
to, whose key is then the outermost one. -/
inductive Starts (c : Compiler) :
    SourceStack → String → Except (List CompileError) CompiledGraph → Prop where
  | text (text : String) : Starts c .empty text (c.compile text)
  | source {reference : String} {source : Source}
    (h : c.loader.load reference none = .ok source) :
    Starts c (.rootedAt source.key) source.text (c.compileSource reference)

variable {text : String} {result : Except (List CompileError) CompiledGraph}

theorem Starts.eq (h : c.Starts stack text result) : result = c.compileIn stack text := by
  cases h with
  | text text => rfl
  | source hload =>
    unfold compileSource
    rw [hload]
    rfl

theorem Starts.nodup (h : c.Starts stack text result) : stack.keys.Nodup := by
  cases h with
  | text text => exact List.nodup_nil
  | source hload => exact List.nodup_singleton _

/-- A definition that is read from a text is bounded, whatever is on the stack. -/
theorem exists_bounded {sources : Dict String} (hc : c.loader = .texts sources)
    (stack : SourceStack) (hd : Definition.parse text = .ok d) :
    ∃ bound < c.maxDepth, Bounded sources.names bound ⟨stack, d⟩ := by
  refine ⟨_, ?_, Yaml.maxDepth, Definition.inlineBelow_parse hd, Nat.le_refl _, Nat.le_refl _⟩
  have hfresh : stack.fresh sources.names ≤ sources.length := by
    unfold SourceStack.fresh Dict.names
    exact (List.length_filter_le _ _).trans (List.length_map _).le
  unfold maxDepth
  rw [hc]
  dsimp only [SourceLoader.count, Yaml.maxDepth]
  omega

/-- How the definitions inside a definition are compiled with it. -/
structure NestsFrom (c : Compiler) (store : Option Store) (s : Site)
    (result : Except (List CompileError) CompiledGraph) : Prop where
  /-- There are only finitely many steps from a definition to one inside it. -/
  finite : Acc (fun t s => ∃ id, c.Leads id s t) s
  /-- No definition is so deep inside that a greater depth would change what it is compiled to. -/
  deep_enough : ∀ ids t, c.Way s ids t → ∀ depth, c.maxDepth ≤ depth →
    (c.assembleOn store depth t.definition).run t.stack =
      (c.assembleOn store c.maxDepth t.definition).run t.stack
  /-- No key lies twice on a way into the graph. -/
  nodup : ∀ g, result = .ok g → ∀ keys d' g',
    c.Within s.stack.keys s.definition g.graph keys d' g' → keys.Nodup
  /-- All graphs inside the graph stand at the ends of such ways. -/
  inside : ∀ g, result = .ok g → ∀ keys d' g',
    c.Within s.stack.keys s.definition g.graph keys d' g' → ∀ p ∈ g'.nodes, ∀ inner,
      p.2.graph? = some inner →
        ∃ key child, c.Within s.stack.keys s.definition g.graph (keys ++ [key]) child inner
  /-- A definition that encloses itself is reported exactly where its key is on the stack already, with
  the keys on the stack and its own. -/
  reports : ∀ ids chain, CompileError.Reports ids chain (Staged.ofExcept result).errors ↔
    ∃ t, c.Way s ids t ∧ c.Refuses t chain
  /-- A subgraph leaves the stack as it has found it, however it ends. -/
  restores : ∀ depth env node spec around,
    ((c.subgraphOn (c.assembleOn store depth) env node spec).run around).2 = around
  /-- So all nodes of a definition are compiled on the same stack. -/
  alone : ∀ depth around d, (c.nodesOn (c.subgraphOn (c.assembleOn store depth))
      (c.surroundings around d) d.nodes).run around =
    (c.nodesOf (c.innerAt store depth) (c.surroundings around d) d.nodes, around)

/-- The errors of a text are those of its definition. -/
theorem errors_compileIn (hd : Definition.parse text = .ok d) (hstore : c.storeFor d = .ok store) :
    (Staged.ofExcept (c.compileIn stack text)).errors =
      (Staged.ofExcept (c.assemble store c.maxDepth stack d)).errors := by
  unfold compileIn
  rw [hd]
  dsimp only [Except.mapError, bind, Except.bind]
  rw [hstore]
  dsimp only
  rw [run_assembleOn]
  cases c.assemble store c.maxDepth stack d <;> rfl

theorem nestsFrom_of_starts {sources : Dict String} (hc : c.loader = .texts sources)
    (hstart : c.Starts stack text result) (hd : Definition.parse text = .ok d)
    (hstore : c.storeFor d = .ok store) : c.NestsFrom store ⟨stack, d⟩ result := by
  obtain ⟨bound, hbound, hbounded⟩ := exists_bounded hc stack hd
  have hresult := hstart.eq
  have hway {g : CompiledGraph} (hg : result = .ok g) {keys : List String} {d' : Definition}
      {g' : Graph} (hwithin : c.Within stack.keys d g.graph keys d' g') :
      keys.Nodup ∧ ∃ depth assembled, c.assemble store depth ⟨keys⟩ d' = .ok assembled ∧
        assembled.nodes = g'.nodes := by
    rw [hresult] at hg
    obtain ⟨d₀, hd₀, hg⟩ := ok_of_bind hg
    rw [hd] at hd₀
    cases hd₀
    obtain ⟨store₀, hstore₀, hg⟩ := ok_of_bind hg
    rw [hstore] at hstore₀
    cases hstore₀
    obtain ⟨assembled, hassembled, hg⟩ := ok_of_bind hg
    rw [run_assembleOn] at hassembled
    refine nodup_of_within hstart.nodup hassembled ?_ hwithin
    cases hg
    cases c.config <;> rfl
  refine ⟨acc_of_bounded hc hbounded, ?_, ?_, ?_, ?_, ?_, ?_⟩
  · intro ids t hreached depth hdepth
    obtain ⟨below, hbelow, hreached⟩ := hbounded.way hc hreached
    rw [run_assembleOn, run_assembleOn, assemble_eq_of_bounded hc hreached (by omega)
      (by omega : below < c.maxDepth)]
  · exact fun g hg keys d' g' hwithin => (hway hg hwithin).1
  · intro g hg keys d' g' hwithin p hp inner hinner
    obtain ⟨_, depth, assembled, hassembled, hnodes⟩ := hway hg hwithin
    exact hwithin.exists_inside hassembled hnodes hp hinner
  · intro ids chain
    rw [hresult, errors_compileIn hd hstore]
    exact reports_assemble_iff hc hbounded hbound
  · intro depth env node spec around
    have hrun := run_subgraphOn (run_assembleOn c store depth) { env with stack := around } node spec
    exact congrArg Prod.snd hrun
  · intro depth around d
    exact run_nodesOn (fun node spec =>
      run_subgraphOn (run_assembleOn c store depth) (c.surroundings around d) node spec) d.nodes

end Compiler

/-- **Definitions inside one another are compiled in finitely many steps, and one that encloses
itself is refused.** Whatever sources can be loaded, and whatever a text refers to or has inline: a
text that is not read, or whose store is not made, is refused at once. From any other text there are
only finitely many steps to the definitions inside it, and none is so deep inside that it is cut off.
No key lies twice on a way into the graph, and that a definition encloses itself is reported exactly
where its key is on the stack already. Each subgraph leaves the stack as it has found it, so that all
nodes of a definition are compiled on the same stack. -/
theorem nested_definitions_compile (c : Compiler) {sources : Dict String}
    (hc : c.loader = .texts sources) {stack : SourceStack} {text : String}
    {result : Except (List CompileError) CompiledGraph} (hstart : c.Starts stack text result) :
    (∀ errors, Definition.parse text = .error errors →
      result = .error (errors.map .definition)) ∧
    ∀ d, Definition.parse text = .ok d →
      (∀ errors, c.storeFor d = .error errors → result = .error errors) ∧
      ∀ store, c.storeFor d = .ok store → c.NestsFrom store ⟨stack, d⟩ result := by
  refine ⟨fun errors herrors => ?_, fun d hd => ⟨fun errors herrors => ?_, fun store hstore => ?_⟩⟩
  · rw [hstart.eq]
    unfold Compiler.compileIn
    rw [herrors]
    rfl
  · rw [hstart.eq]
    unfold Compiler.compileIn
    rw [hd]
    dsimp only [Except.mapError, bind, Except.bind]
    rw [herrors]
  · exact Compiler.nestsFrom_of_starts hc hstart hd hstore

/-- A definition that embeds another one twice, side by side. -/
def pairText : String :=
  "{name: pair, nodes: {first: {type: subgraph, graph: leaf}, second: {type: subgraph, graph: leaf}},
    edges: [{from: first, to: second}, {from: second, to: END}]}"

/-- A definition that embeds one that embeds it. -/
def ringText : String :=
  "{name: ring, nodes: {next: {type: subgraph, graph: back}}, edges: [{from: next, to: END}]}"

/-- A compiler that loads these definitions and what they refer to. -/
def ringCompiler : Compiler :=
  { bareCompiler with
    loader := .texts
      [("back", "{name: back, nodes: {n: {type: subgraph, graph: ring}}, edges: [{from: n, to: END}]}"),
       ("leaf", "{name: leaf, nodes: {n: {type: passthrough}}, edges: [{from: n, to: END}]}"),
       ("pair", pairText), ("ring", ringText)] }

/-- The node and the chain, where the only report is one of a definition that encloses itself inside
a node. -/
def CompileError.onlyChain? : List CompileError → Option (String × List String)
  | [.subgraph node [.definition (.circularSubgraph chain)]] => some (node, chain)
  | _ => none

theorem CompileError.eq_of_onlyChain? {errors : List CompileError} {node : String}
    {chain : List String} (h : onlyChain? errors = some (node, chain)) :
    errors = [.subgraph node [.definition (.circularSubgraph chain)]] := by
  unfold onlyChain? at h
  split at h
  · cases h
    rfl
  · cases h

/-- Siblings embed the same source, and two sources that embed each other are refused. -/
theorem siblings_compile_and_rings_are_refused :
    (∃ d g, ringCompiler.compileSource "pair" = .ok g ∧ ∀ keys d' g',
      ringCompiler.Within ["pair"] d g.graph keys d' g' → keys.Nodup) ∧
    ∃ d t, ringCompiler.Way ⟨.rootedAt "ring", d⟩ ["next"] t ∧
      ringCompiler.Refuses t ["ring", "back", "ring"] := by
  have hpair : (ringCompiler.compileSource "pair").toOption.isSome = true := by decide +kernel
  have hring : CompileError.onlyChain? (Staged.ofExcept (ringCompiler.compileSource "ring")).errors =
      some ("next", ["ring", "back", "ring"]) := by
    decide +kernel
  have hnests (name text : String) (hload : ringCompiler.loader.load name none = .ok ⟨name, text⟩)
      (htext : ((Definition.parse text).toOption.any fun d => d.checkpoint.isNone) = true) :
      ∃ d, ringCompiler.NestsFrom none ⟨.rootedAt name, d⟩ (ringCompiler.compileSource name) := by
    cases hd : Definition.parse text with
    | error errors =>
      rw [hd] at htext
      cases htext
    | ok d =>
      rw [hd] at htext
      have hstore : ringCompiler.storeFor d = .ok none := by
        unfold Compiler.storeFor
        rw [Option.isNone_iff_eq_none.1 htext]
        rfl
      exact ⟨d, ((nested_definitions_compile ringCompiler rfl (.source hload)).2 d hd).2 none hstore⟩
  constructor
  · obtain ⟨d, hnests⟩ := hnests "pair" pairText rfl (by decide +kernel)
    cases hg : ringCompiler.compileSource "pair" with
    | error errors =>
      rw [hg] at hpair
      cases hpair
    | ok g => exact ⟨d, g, rfl, hnests.nodup g hg⟩
  · obtain ⟨d, hnests⟩ := hnests "ring" ringText rfl (by decide +kernel)
    have hreports : CompileError.Reports ["next"] ["ring", "back", "ring"]
        (Staged.ofExcept (ringCompiler.compileSource "ring")).errors := by
      rw [CompileError.eq_of_onlyChain? hring]
      exact .inside List.mem_cons_self (.here List.mem_cons_self)
    exact ⟨d, (hnests.reports _ _).1 hreports⟩

end WorkflowGraph
