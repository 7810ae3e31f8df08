import WorkflowGraph.Proofs.Compiler.Assemble
import WorkflowGraph.Proofs.Compiler.Wiring
import WorkflowGraph.Proofs.Graph.Uninterrupted

/-!
# Interrupts need a store

A definition with an interrupt, be it inside maps, is compiled only where there is a store. What is
inside its subgraphs is compiled on the same store, whatever store they describe themselves. So a
graph that has been compiled without a store has no interrupt at any depth, and never suspends
(`compiled_without_store_never_suspends`).
-/

set_option autoImplicit false

namespace WorkflowGraph

open Activity

namespace Compiler

variable {c : Compiler} {inner : Inner} {env : Surroundings}

/-- A definition is linked without a store only if none of its nodes is an interrupt or a map around
one. -/
theorem firstInterrupt?_of_link {stack : SourceStack} {d : Definition} {g : Graph}
    (h : c.link inner none stack d = .ok g) : d.firstInterrupt? = none := by
  cases hfirst : d.firstInterrupt? with
  | none => rfl
  | some id =>
    unfold link linkNodes at h
    rw [hfirst] at h
    dsimp only at h
    split at h
    · next herrors _ _ => simp at herrors
    · cases h

/-- A node that is no interrupt and no map around one is compiled to a node without interrupts, if
its subgraph is. By induction through the nodes inside maps. -/
theorem CompiledAs.uninterrupted
    (hinner : ∀ node spec g, (inner env node spec).made = some g → g.Uninterrupted)
    {kind : NodeKind} {id : String} {options : NodeOptions} {skip : Bool} {made : GraphNode}
    (h : CompiledAs c inner env id options skip kind made)
    (hkind : NodeDecl.interruptIn? id kind = none) : made.Uninterrupted := by
  induction h with
  | map spec h ih => exact .map _ _ (ih hkind)
  | subgraph hg =>
    have huninterrupted := hinner _ _ _ hg
    exact .subgraph _ _ huninterrupted.store huninterrupted.nodes
  | interrupt => cases hkind
  | _ => exact .leaf _ (by rintro _ ⟨⟩)

/-- A graph that is assembled without a store has no interrupt at any depth. By induction on the
depth: the definitions inside subgraphs are assembled without a store as well. -/
theorem uninterrupted_of_assemble {depth : Nat} {stack : SourceStack} {d : Definition} {g : Graph}
    (h : c.assemble none depth stack d = .ok g) : g.Uninterrupted := by
  induction depth generalizing stack d g with
  | zero => cases h
  | succ depth ih =>
    obtain ⟨hd, below, hbelow, hlinked⟩ := linked_of_assemble h
    cases hbelow
    rw [assemble_succ c none depth stack hd] at h
    refine ⟨hlinked.store, fun p hp => ?_⟩
    rw [hlinked.nodes] at hp
    obtain ⟨n, hn, _, hmade⟩ := exists_of_mem_nodesOf hp
    have hkind : NodeDecl.interruptIn? n.id n.kind = none :=
      List.findSome?_eq_none_iff.1 (firstInterrupt?_of_link h) n hn
    refine (compiledAs_of_nodeOf hmade).uninterrupted ?_ hkind
    intro node spec inner hinner
    obtain ⟨stack, child, hassemble⟩ := assemble_of_innerAt hinner
    exact ih hassemble

/-- Whether a graph has been compiled: from a text, from the source that a reference leads to, or
from a file. -/
inductive Makes (c : Compiler) (g : CompiledGraph) : Prop where
  | text (text : String) (h : c.compile text = .ok g)
  | source (reference : String) (h : c.compileSource reference = .ok g)
  | file (files : SourceFiles) (path : String) (h : c.compileFile files path = .ok g)

theorem compileIn_of_compileLoaded {path : String} {loaded : Except SourceFault Source}
    {g : CompiledGraph} (h : c.compileLoaded path loaded = .ok g) :
    ∃ stack text, c.compileIn stack text = .ok g := by
  unfold compileLoaded at h
  cases loaded with
  | error fault => cases h
  | ok source => exact ⟨_, _, h⟩

theorem Makes.compileIn {g : CompiledGraph} (h : c.Makes g) :
    ∃ stack text, c.compileIn stack text = .ok g := by
  cases h with
  | text text h => exact ⟨.empty, text, h⟩
  | source reference h => exact compileIn_of_compileLoaded h
  | file files path h => exact compileIn_of_compileLoaded h

/-- A compiled graph is what its definition is assembled to on the store that it is given, with
the configuration of the compiler if there is one. -/
theorem assemble_of_compileIn {stack : SourceStack} {text : String} {g : CompiledGraph}
    (h : c.compileIn stack text = .ok g) :
    ∃ store assembled config, c.storeFor g.definition = .ok store ∧
      c.assemble store c.maxDepth stack g.definition = .ok assembled ∧
      g.graph = assembled.withConfig config := by
  obtain ⟨d, _, h⟩ := ok_of_bind h
  obtain ⟨store, hstore, h⟩ := ok_of_bind h
  obtain ⟨assembled, hassembled, h⟩ := ok_of_bind h
  rw [run_assembleOn] at hassembled
  cases h
  cases c.config with
  | none => exact ⟨store, assembled, assembled.frame.config, hstore, hassembled, rfl⟩
  | some config => exact ⟨store, assembled, config, hstore, hassembled, rfl⟩

theorem uninterrupted_of_makes {g : CompiledGraph} (hc : c.store = none) (hg : c.Makes g)
    (hd : g.definition.checkpoint = none) : g.graph.Uninterrupted := by
  obtain ⟨stack, text, h⟩ := hg.compileIn
  obtain ⟨store, assembled, config, hstore, hassembled, hgraph⟩ := assemble_of_compileIn h
  unfold storeFor at hstore
  rw [hc, hd] at hstore
  cases hstore
  rw [hgraph]
  exact (uninterrupted_of_assemble hassembled).withConfig config

end Compiler

/-- **What is compiled without a store never suspends.** Of a graph that is compiled from a text, a
reference or a file, where neither the caller gives a store nor the definition describes one, no
node is an interrupt, at any depth of maps and subgraphs. No run of it ends suspended, and no
attempt to resume one: on whatever thread, with whatever input and configuration, whatever the calls
are answered, and on whatever host and in whatever world. -/
theorem compiled_without_store_never_suspends (c : Compiler) (g : CompiledGraph)
    (hc : c.store = none) (hg : c.Makes g) (hd : g.definition.checkpoint = none) :
    (∀ p ∈ g.graph.nodes, ∀ node, node.Inside p.2 →
      ∀ frame n, node ≠ GraphNode.leaf frame (.interrupt n)) ∧
    ∀ (config : RunConfig) (thread : String) (call : Activity RunResult),
      (g.graph.withConfig config).Serves thread call →
      (∀ es r, Course call es r → ¬ r.IsSuspended) ∧
      ∀ {σ : Type} (host : Host σ) (w : World σ), ¬ (call.run host w).1.IsSuspended := by
  have huninterrupted := Compiler.uninterrupted_of_makes hc hg hd
  refine ⟨fun p hp node hnode => hnode.not_interrupt (huninterrupted.nodes p hp), ?_⟩
  intro config thread call hcall
  have hobeys := (huninterrupted.withConfig config).serves_obeys hcall
  refine ⟨fun es r hcourse => ?_, fun host w => hobeys.run host w⟩
  exact ((obeys_iff_meets.1 hobeys).course hcourse fun _ _ => trivial).1

/-- A definition with a subgraph inside a map. The store that the inner definition describes is of
no account. -/
def nestedText : String :=
  "name: outer
nodes:
  each: {type: map, over: xs, as: x, collect: ys, node: {type: subgraph, definition: {name: inner,
    checkpoint: {type: memory}, nodes: {pass: {type: passthrough}},
    edges: [{from: pass, to: END}]}}}
edges: [{from: each, to: END}]"

/-- The nested definition is compiled without a store, and never suspends. -/
theorem nested_text_never_suspends :
    ∃ g, bareCompiler.compile nestedText = .ok g ∧
      (∀ p ∈ g.graph.nodes, ∀ node, node.Inside p.2 →
        ∀ frame n, node ≠ GraphNode.leaf frame (.interrupt n)) ∧
      ∀ (input : Value) (host : Host Unit) (w : World Unit),
        ¬ (((g.graph.withConfig .standard).run input "t").run host w).1.IsSuspended := by
  have hcompiled : (bareCompiler.compile nestedText).toOption.any
      (fun g => g.definition.checkpoint.isNone) = true := by
    decide +kernel
  cases hg : bareCompiler.compile nestedText with
  | error errors =>
    rw [hg] at hcompiled
    cases hcompiled
  | ok g =>
    rw [hg] at hcompiled
    have hnone : g.definition.checkpoint = none := Option.isNone_iff_eq_none.1 hcompiled
    obtain ⟨hnodes, hruns⟩ :=
      compiled_without_store_never_suspends bareCompiler g rfl (.text nestedText hg) hnone
    refine ⟨g, rfl, hnodes, fun input host w => ?_⟩
    exact (hruns .standard "t" _ (.inl ⟨input, rfl⟩)).2 host w

end WorkflowGraph
