import WorkflowGraph.Definition.Basic
import WorkflowGraph.Error

/-!
# Validation of definitions

Every name that a definition mentions has to exist: the entry, the targets of
routes, the ends of edges, tools, and the nodes of loop limits. Validation
reports all faults, in the order of the declarations. Which transitions a node
has is looked at when the transition table is built.
-/

set_option autoImplicit false

namespace WorkflowGraph

namespace Definition

/-- The edges together with their indices. -/
def indexedEdges (d : Definition) : List (Nat × EdgeDecl) :=
  (List.range d.edges.length).zip d.edges

/-- Faults of the entry and of the edges that leave the start marker. -/
def entryFaults (d : Definition) : List DefinitionError :=
  let starts := d.indexedEdges.filter fun p => p.2.source == startMarker
  let second := match starts with
    | _ :: (index, _) :: _ => [.invalidEdge index startMarker .secondStart]
    | _ => []
  let first := match starts with
    | (index, e) :: _ =>
      if e.condition.isSome || e.targets.length != 1 then
        [.invalidEdge index startMarker .startNotPlain]
      else []
    | [] => []
  let entry := match d.entryPoint? with
    | some id => if d.hasNode id then [] else [.unknownEntry id]
    | none => []
  second ++ first ++ entry

/-- The fault of a tool that is not declared. -/
def toolFaults (d : Definition) (node tool : String) : List DefinitionError :=
  if d.tools.has tool then [] else [.unknownTool node tool]

/-- A fault that is there where a condition holds. -/
def faultIf (c : Bool) (node : String) (fault : NodeFault) : List DefinitionError :=
  if c then [.invalidNode node fault] else []

/-- Whether a name holds nothing but blanks. -/
def isBlankName (s : String) : Bool := Text.isAllBlank s

/-- Faults of one route of a router. -/
def routeFaults (d : Definition) (node route target : String) : List DefinitionError :=
  if target == endMarker || d.hasNode target then []
  else [.unknownRouteTarget node route target]

/-- Faults of a transform. -/
def transformFaults (d : Definition) (id : String) (options : NodeOptions)
    (spec : TransformSpec) : List DefinitionError :=
  (match spec.task, spec.tool with
    | some _, some _ => [.invalidNode id .taskAndTool]
    | none, none => [.invalidNode id .noTaskOrTool]
    | none, some tool => d.toolFaults id tool
    | some _, none => []) ++
  faultIf options.output.isNone id .noOutput

/-- Faults of a router. -/
def routerFaults (d : Definition) (id : String) (inMap : Bool) (spec : RouterSpec) :
    List DefinitionError :=
  (match spec.task, spec.source with
    | some _, some _ => [.invalidNode id .taskAndFrom]
    | none, none => [.invalidNode id .noTaskOrFrom]
    | _, _ => []) ++
  faultIf (spec.routes.isEmpty && spec.defaultRoute.isNone) id .noRoutes ++
  (spec.routes.flatMap fun r => d.routeFaults id r.1 r.2) ++
  (spec.defaultRoute.toList.flatMap fun target => d.routeFaults id "default_route" target) ++
  faultIf inMap id .routerInMap

/-- Faults of an agent. -/
def agentFaults (d : Definition) (id : String) (spec : AgentSpec) : List DefinitionError :=
  faultIf (isBlankName spec.task) id .noTask ++
  (spec.tools.flatMap fun tool => d.toolFaults id tool) ++
  faultIf (spec.maxIterations == some 0) id .zeroIterations

/-- Faults of a map, without those of its inner node. -/
def mapFaults (id : String) (spec : MapSpec) : List DefinitionError :=
  faultIf (isBlankName spec.source) id .blankOver ++
  faultIf (isBlankName spec.item || spec.item.toList.contains '.') id .itemNotPlain ++
  faultIf (isBlankName spec.collect) id .noCollect ++
  faultIf (spec.maxConcurrency == some 0) id .zeroConcurrency

/-- Faults of an interrupt. -/
def interruptFaults (id : String) (inMap : Bool) (spec : InterruptSpec) : List DefinitionError :=
  faultIf (spec.message.isNone && spec.task.isNone) id .noMessageOrTask ++
  faultIf inMap id .interruptInMap

/-- Faults of a subgraph. -/
def subgraphFaults (id : String) (spec : SubgraphSpec) : List DefinitionError :=
  match spec.graph, spec.definition with
  | some _, some _ => [.invalidNode id .graphAndDefinition]
  | none, none => [.invalidNode id .noGraphOrDefinition]
  | _, _ => []

/-- Faults of a node. The node inside a map follows the map. -/
def nodeFaults (d : Definition) (id : String) (options : NodeOptions) (inMap : Bool) :
    NodeKind → List DefinitionError
  | .transform spec => d.transformFaults id options spec
  | .router spec => d.routerFaults id inMap spec
  | .agent spec => d.agentFaults id spec
  | .map spec innerOptions inner =>
    mapFaults id spec ++ nodeFaults d (NodeDecl.innerId id) innerOptions true inner
  | .interrupt spec => interruptFaults id inMap spec
  | .subgraph spec => subgraphFaults id spec
  | .passthrough _ => []

/-- Faults of one target of an edge. -/
def targetFaults (d : Definition) (index : Nat) (e : EdgeDecl) (target : String) :
    List DefinitionError :=
  if target == startMarker then [.invalidEdge index e.source .targetsStart]
  else if target == endMarker || d.hasNode target then []
  else [.unknownEdgeEndpoint index e.source (String.intercalate ", " e.targets) target]

/-- Faults of an edge. -/
def edgeFaults (d : Definition) (index : Nat) (e : EdgeDecl) : List DefinitionError :=
  (if e.source == endMarker then [.invalidEdge index e.source .leavesEnd]
    else if isMarker e.source || d.hasNode e.source then []
    else [.unknownEdgeEndpoint index e.source (String.intercalate ", " e.targets) e.source]) ++
  (if e.targets.isEmpty then [.invalidEdge index e.source .noTarget] else []) ++
  (e.targets.flatMap fun target => d.targetFaults index e target) ++
  (if (d.node? e.source).any fun n => n.kind.isRouter then
    [.invalidEdge index e.source .leavesRouter] else [])

/-- The fault of a loop limit. -/
def limitFaults (d : Definition) (node : String) (limit : Nat) : List DefinitionError :=
  if !d.hasNode node then [.unknownLoopLimit node]
  else if limit == 0 then [.invalidSection "loop_limits" (.zeroLimit node)]
  else []

/-- All faults of a definition. -/
def faults (d : Definition) : List DefinitionError :=
  d.entryFaults ++
  (d.nodes.flatMap fun n => d.nodeFaults n.id n.options false n.kind) ++
  (d.indexedEdges.flatMap fun p => d.edgeFaults p.1 p.2) ++
  (d.loopLimits.flatMap fun p => d.limitFaults p.1 p.2)

end Definition

end WorkflowGraph
