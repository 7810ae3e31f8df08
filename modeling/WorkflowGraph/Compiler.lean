import WorkflowGraph.Definition.Reader
import WorkflowGraph.Definition.Source
import WorkflowGraph.Definition.Validation
import WorkflowGraph.Diagram
import WorkflowGraph.Graph.Basic
import WorkflowGraph.Graph.Run
import WorkflowGraph.Shape.Inference

/-!
# Compiling definitions

A definition is compiled to a graph in stages: it is validated, the shape of its state is
inferred, its transitions are built, and its nodes are bound to executors and tools. A
definition that is not valid goes no further; of the other stages all errors are reported.
The definitions of subgraphs are compiled in the same way, on the same store; one that
encloses itself is refused.

The keys of the definitions around are kept on one stack, which is given on from node to node:
a subgraph puts its key on it and takes it away when it is done (`Compiler.assembleOn`). Where
the stack is needed as a value, `Compiler.assemble` has it as an argument.
-/

set_option autoImplicit false

namespace WorkflowGraph

/-- What definitions are compiled against. A store that is given here stands over the one
that a definition describes, and so does a configuration. -/
structure Compiler where
  executors : ExecutorSupply
  tools : ToolRegistry
  loader : SourceLoader
  store : Option Store
  config : Option RunConfig

/-- A compiled definition. -/
structure CompiledGraph where
  definition : Definition
  graph : Graph

/-- What a stage has made, and the errors that it has found. -/
structure Staged (α : Type) where
  made : Option α
  errors : List CompileError

namespace Staged

variable {α β : Type}

/-- A stage without errors. -/
def ok (a : α) : Staged α := ⟨some a, []⟩

/-- A stage that has made nothing. -/
def refused (errors : List CompileError) : Staged α := ⟨none, errors⟩

/-- The stage of a computation that may fail. -/
def ofExcept : Except (List CompileError) α → Staged α
  | .ok a => ok a
  | .error errors => refused errors

/-- Apply a function to what has been made. -/
def map (f : α → β) (s : Staged α) : Staged β := ⟨s.made.map f, s.errors⟩

end Staged

namespace Compiler

/-- What the nodes of a definition are compiled in. -/
structure Surroundings where
  definition : Definition
  table : Option TransitionTable
  tools : Dict BoundTool
  stack : SourceStack

/-- The bound tools of a definition, and an error for every tool whose binding is not
registered. -/
def bindTools (c : Compiler) : List (String × ToolDecl) → Dict BoundTool × List CompileError
  | [] => ([], [])
  | (name, decl) :: rest =>
    let (bound, errors) := c.bindTools rest
    let binding := decl.binding.getD name
    match c.tools.get? binding with
    | some tool => (Dict.put bound name (.bind name tool decl.description decl.parameters), errors)
    | none => (bound, .definition (.unresolvedToolBinding name binding) :: errors)

/-- The executor of a backend, if it does a task. -/
def executorFor (c : Compiler) (node task : String) (backend : Option Value) :
    Except (List CompileError) Executor :=
  match c.executors backend with
  | .error reason => .error [.definition (.executorUnavailable node reason)]
  | .ok e =>
    if e.supports task then .ok e else .error [.definition (.unresolvedTask node task)]

/-- The executors of a task of a node. -/
def bindTask (c : Compiler) (d : Definition) (node : NodeDecl) (task : String) :
    Except (List CompileError) TaskBinding := do
  let backend := match node.options.backend with
    | some b => some b
    | none => d.defaults.backend
  let primary ← c.executorFor node.id task backend
  match node.options.onError, node.options.fallback with
  | .fallback, some backend =>
    let fallback ← c.executorFor node.id task (some backend)
    pure ⟨task, primary, some fallback⟩
  | _, _ => pure ⟨task, primary, none⟩

/-- The fields whose content makes it needless to execute a node. -/
def settledFields (node : NodeDecl) : List String :=
  match node.kind with
  | .interrupt spec => [spec.resumeKey]
  | .subgraph spec => spec.outputMapping.values
  | .passthrough spec => spec.targets
  | .map spec _ _ => [spec.collect]
  | .transform _ | .router _ | .agent _ => node.outputField?.toList

/-- Whether a node is skipped when its outputs are there. A node on a cycle is not, unless
it says so itself. -/
def isSkipped (env : Surroundings) (node : NodeDecl) : Bool :=
  let inCycle := env.table.any fun table => table.inCycle node.id
  node.options.skipIfExists.getD (!inCycle && env.definition.defaults.skipIfExists)

/-- The frame of a node. -/
def frameOf (node : NodeDecl) (skip : Bool) : NodeFrame where
  id := node.id
  output := node.outputField?
  policy :=
    { onError := node.options.onError
      maxRetries := node.options.maxRetries
      timeout := node.options.timeout
      skipFields := if skip then settledFields node else []
      requires := node.options.requires }

/-- The action of a transform. -/
def transformOf (c : Compiler) (env : Surroundings) (node : NodeDecl) (spec : TransformSpec) :
    Staged Action :=
  let make (target : TransformTarget) : Staged Action :=
    ⟨node.options.output.map fun output =>
      .transform ⟨target, spec.inputs, spec.args, output, node.options.outputSchema⟩, []⟩
  match spec.task, spec.tool with
  | some task, _ =>
    match c.bindTask env.definition node task with
    | .ok binding => make (.task binding)
    | .error errors => .refused errors
  | none, some name =>
    match env.tools.get? name with
    | some tool => make (.tool tool)
    | none => .refused []
  | none, none => .refused []

/-- The action of a router. -/
def routerOf (c : Compiler) (env : Surroundings) (node : NodeDecl) (spec : RouterSpec) :
    Staged Action :=
  let make (source : RouteSource) : Action :=
    .router ⟨source, spec.inputs, node.routeField, spec.classificationKey,
      node.options.outputSchema⟩
  match spec.task, spec.source with
  | some task, _ =>
    (Staged.ofExcept (c.bindTask env.definition node task)).map fun binding => make (.task binding)
  | none, some path => .ok (make (.path path))
  | none, none => .refused []

/-- The action of an agent. -/
def agentOf (c : Compiler) (env : Surroundings) (node : NodeDecl) (spec : AgentSpec) :
    Staged Action :=
  let defaults := env.definition.defaults
  (Staged.ofExcept (c.bindTask env.definition node spec.task)).map fun binding =>
    .agent ⟨binding, spec.tools.filterMap env.tools.get?, spec.inputs,
      spec.maxIterations.getD defaults.maxIterations,
      spec.messagesField.getD defaults.messagesField, node.outputField?⟩

/-- The action of an interrupt. -/
def interruptOf (c : Compiler) (env : Surroundings) (node : NodeDecl) (spec : InterruptSpec)
    (skip : Bool) : Staged Action :=
  let make (source : MessageSource) : Staged Action :=
    ⟨node.outputField?.map fun output =>
      .interrupt ⟨source, spec.inputs, output, spec.resumeKey, skip⟩, []⟩
  match spec.message, spec.task with
  | some text, _ => make (.template text)
  | none, some task =>
    match c.bindTask env.definition node task with
    | .ok binding => make (.task binding)
    | .error errors => .refused errors
  | none, none => .refused []

/-- How the graph inside a subgraph is made. -/
abbrev Inner : Type := Surroundings → NodeDecl → SubgraphSpec → Staged Graph

/-- Compile a node. The node inside a map is never skipped. -/
def nodeOf (c : Compiler) (inner : Inner) (env : Surroundings) (id : String)
    (options : NodeOptions) (skip : Bool) : NodeKind → Staged GraphNode
  | .map spec innerOptions kind =>
    let frame := frameOf ⟨id, .map spec innerOptions kind, options⟩ skip
    (nodeOf c inner env (NodeDecl.innerId id) innerOptions false kind).map fun node =>
      .map frame spec node
  | .subgraph spec =>
    let node : NodeDecl := ⟨id, .subgraph spec, options⟩
    let mappings : FieldMappings := ⟨spec.inputMapping, spec.outputMapping, spec.interruptMapping⟩
    (inner env node spec).map fun g => .subgraph (frameOf node skip) mappings g.frame g.nodes
  | .transform spec =>
    let node : NodeDecl := ⟨id, .transform spec, options⟩
    (c.transformOf env node spec).map fun action => .leaf (frameOf node skip) action
  | .router spec =>
    let node : NodeDecl := ⟨id, .router spec, options⟩
    (c.routerOf env node spec).map fun action => .leaf (frameOf node skip) action
  | .agent spec =>
    let node : NodeDecl := ⟨id, .agent spec, options⟩
    (c.agentOf env node spec).map fun action => .leaf (frameOf node skip) action
  | .interrupt spec =>
    let node : NodeDecl := ⟨id, .interrupt spec, options⟩
    (c.interruptOf env node spec skip).map fun action => .leaf (frameOf node skip) action
  | .passthrough spec =>
    .ok (.leaf (frameOf ⟨id, .passthrough spec, options⟩ skip) (.passthrough spec))

/-- Compile the nodes of a definition. -/
def nodesOf (c : Compiler) (inner : Inner) (env : Surroundings) :
    List NodeDecl → List (String × GraphNode) × List CompileError
  | [] => ([], [])
  | node :: rest =>
    let staged := c.nodeOf inner env node.id node.options (isSkipped env node) node.kind
    let (nodes, errors) := c.nodesOf inner env rest
    ((staged.made.toList.map fun n => (node.id, n)) ++ nodes, staged.errors ++ errors)

/-- What the nodes of a definition are compiled in. -/
def surroundings (c : Compiler) (stack : SourceStack) (d : Definition) : Surroundings :=
  ⟨d, (Staged.ofExcept (TransitionTable.ofDefinition d)).made, (c.bindTools d.tools).1, stack⟩

/-- The graph of a valid definition whose nodes have been compiled. -/
def linkNodes (c : Compiler) (store : Option Store) (d : Definition)
    (compiled : List (String × GraphNode) × List CompileError) :
    Except (List CompileError) Graph :=
  let shape := Staged.ofExcept ((StateShape.infer d).mapError fun es => es.map .definition)
  let table := Staged.ofExcept (TransitionTable.ofDefinition d)
  let interrupts := match d.firstInterrupt?, store with
    | some node, none => [CompileError.interruptWithoutCheckpointer node]
    | _, _ => []
  let errors :=
    shape.errors ++ table.errors ++ interrupts ++ (c.bindTools d.tools).2 ++ compiled.2
  match errors, shape.made, table.made with
  | [], some shape, some table =>
    .ok ⟨⟨d.name, table, shape, .ofDefaults d.defaults, store⟩, compiled.1⟩
  | errors, _, _ => .error errors

/-- Compile a valid definition, given how the graphs inside its subgraphs are made. -/
def link (c : Compiler) (inner : Inner) (store : Option Store) (stack : SourceStack)
    (d : Definition) : Except (List CompileError) Graph :=
  c.linkNodes store d (c.nodesOf inner (c.surroundings stack d) d.nodes)

/-- The source of the definition inside a subgraph, and what it holds. An inline definition
has a key made from the key around it. -/
def subgraphSource (c : Compiler) (env : Surroundings) (node : NodeDecl) (spec : SubgraphSpec) :
    Except (List CompileError) (String × Except (List DefinitionError) Definition) :=
  match spec.graph, spec.definition with
  | some reference, _ =>
    match c.loader.load reference env.stack.current? with
    | .ok source => .ok (source.key, Definition.parse source.text)
    | .error fault => .error [.definition (.subgraphSource node.id reference fault)]
  | none, some inline =>
    let around := env.stack.current?.getD env.definition.name
    .ok (around ++ "#" ++ node.id, Definition.ofValue inline)
  | none, none => .error []

/-- Compile a definition and those inside it, which are at most `depth` deep. -/
def assemble (c : Compiler) (store : Option Store) : (depth : Nat) → SourceStack → Definition →
    Except (List CompileError) Graph
  | 0, stack, _ => .error [.definition (.circularSubgraph stack.keys)]
  | depth + 1, stack, d =>
    match d.faults with
    | [] =>
      let inner : Inner := fun env node spec =>
        match c.subgraphSource env node spec with
        | .error errors => .refused errors
        | .ok (key, parsed) =>
          match env.stack.enter key with
          | .error e => .refused [.definition e]
          | .ok stack =>
            let made := match parsed with
              | .ok child => c.assemble store depth stack child
              | .error es => .error (es.map .definition)
            Staged.ofExcept (made.mapError fun es => [.subgraph node.id es])
      c.link inner store stack d
    | faults => .error (faults.map .definition)

/-- How the graph inside a subgraph is made on the stack of the definitions around. -/
abbrev InnerOn : Type := Surroundings → NodeDecl → SubgraphSpec → StateM SourceStack (Staged Graph)

/-- Compile a node. The graph of the subgraph in it, if there is one, is made first. -/
def nodeOn (c : Compiler) (inner : InnerOn) (env : Surroundings) (node : NodeDecl) :
    StateM SourceStack (Staged GraphNode) := do
  let graph ← match NodeDecl.subgraph? node.id node.options node.kind with
    | some (subgraph, spec) => inner env subgraph spec
    | none => pure (.refused [])
  return c.nodeOf (fun _ _ _ => graph) env node.id node.options (isSkipped env node) node.kind

/-- Compile the nodes of a definition one after the other, on one stack. -/
def nodesOn (c : Compiler) (inner : InnerOn) (env : Surroundings) :
    List NodeDecl → StateM SourceStack (List (String × GraphNode) × List CompileError)
  | [] => pure ([], [])
  | node :: rest => do
    let staged ← c.nodeOn inner env node
    let (nodes, errors) ← c.nodesOn inner env rest
    return ((staged.made.toList.map fun n => (node.id, n)) ++ nodes, staged.errors ++ errors)

/-- Make the graph inside a subgraph: its key is put on the stack, and taken away again however
that ends. -/
def subgraphOn (c : Compiler)
    (compile : Definition → StateM SourceStack (Except (List CompileError) Graph)) : InnerOn :=
  fun env node spec => do
    let stack ← get
    match c.subgraphSource { env with stack } node spec with
    | .error errors => return .refused errors
    | .ok (key, parsed) =>
      match stack.enter key with
      | .error e => return .refused [.definition e]
      | .ok entered => do
        set entered
        let made ← match parsed with
          | .ok child => compile child
          | .error es => pure (.error (es.map .definition))
        modify SourceStack.exit
        return Staged.ofExcept (made.mapError fun es => [.subgraph node.id es])

/-- Compile a definition and those inside it, which are at most `depth` deep, on the stack of the
definitions around. -/
def assembleOn (c : Compiler) (store : Option Store) :
    (depth : Nat) → Definition → StateM SourceStack (Except (List CompileError) Graph)
  | 0, _ => do return .error [.definition (.circularSubgraph (← get).keys)]
  | depth + 1, d =>
    match d.faults with
    | [] => do
      let env := c.surroundings (← get) d
      return c.linkNodes store d
        (← c.nodesOn (c.subgraphOn (c.assembleOn store depth)) env d.nodes)
    | faults => return .error (faults.map .definition)

/-- A depth that nested definitions do not reach: between two of the sources that can be
loaded lie at most as many inline definitions as a text is deep. -/
def maxDepth (c : Compiler) : Nat := (c.loader.count + 2) * (Yaml.maxDepth + 2)

/-- The store of a definition. -/
def storeFor (c : Compiler) (d : Definition) : Except (List CompileError) (Option Store) :=
  match c.store, d.checkpoint with
  | some store, _ => .ok (some store)
  | none, some config =>
    match Store.ofConfig config with
    | .ok store => .ok (some store)
    | .error e => .error [.definition (.invalidSection "checkpoint" (.store e))]
  | none, none => .ok none

/-- Compile the text of a definition whose enclosing sources are on the stack. -/
def compileIn (c : Compiler) (stack : SourceStack) (text : String) :
    Except (List CompileError) CompiledGraph := do
  let d ← (Definition.parse text).mapError fun es => es.map .definition
  let store ← c.storeFor d
  let graph ← ((c.assembleOn store c.maxDepth d).run stack).1
  pure ⟨d, match c.config with
    | some config => graph.withConfig config
    | none => graph⟩

/-- Compile the text of a definition. -/
def compile (c : Compiler) (text : String) : Except (List CompileError) CompiledGraph :=
  c.compileIn .empty text

/-- Compile a loaded source. -/
def compileLoaded (c : Compiler) (path : String) (loaded : Except SourceFault Source) :
    Except (List CompileError) CompiledGraph :=
  match loaded with
  | .ok source => c.compileIn (.rootedAt source.key) source.text
  | .error fault => .error [.source path fault]

/-- Compile the definition that a reference leads to. -/
def compileSource (c : Compiler) (reference : String) :
    Except (List CompileError) CompiledGraph :=
  c.compileLoaded reference (c.loader.load reference none)

/-- Compile a file. -/
def compileFile (c : Compiler) (files : SourceFiles) (path : String) :
    Except (List CompileError) CompiledGraph :=
  c.compileLoaded path (files.load path none)

end Compiler

namespace CompiledGraph

/-- The diagram of a graph, with the marks of a state where one is given. -/
def diagram (g : CompiledGraph) (s : Option State) : String :=
  Diagram.render g.definition.nodes g.graph.frame.table.edges s

end CompiledGraph

end WorkflowGraph
