import WorkflowGraph.Node.Agent
import WorkflowGraph.Node.Interrupt
import WorkflowGraph.Node.Map
import WorkflowGraph.Node.Passthrough
import WorkflowGraph.Node.Router
import WorkflowGraph.Transition.Table

/-!
# Graphs

A graph is what a definition is compiled to: its nodes, ready to be executed, and what
holds for all of them. A node is of one kind in a frame; the node inside a map and the
graph inside a subgraph are part of it.
-/

set_option autoImplicit false

namespace WorkflowGraph

/-- What a node does that has no other node inside it. -/
inductive Action where
  | transform (node : TransformNode)
  | router (node : RouterNode)
  | agent (node : AgentNode)
  | interrupt (node : InterruptNode)
  | passthrough (spec : PassthroughSpec)

/-- What an action does in one attempt. -/
def Action.behaviour : Action → String → Behaviour
  | .transform node => node.behaviour
  | .router node => node.behaviour
  | .agent node => node.behaviour
  | .interrupt node => node.behaviour
  | .passthrough spec => spec.behaviour

/-- What holds for all nodes of a graph: its name, its transitions, the shape of its state,
its configuration, and where its checkpoints are kept. -/
structure GraphFrame where
  name : String
  table : TransitionTable
  shape : StateShape
  config : RunConfig
  store : Option Store

/-- The fields that a graph inside a node exchanges with the state around it. -/
structure FieldMappings where
  input : Dict String
  output : Dict String
  interrupt : Dict String

/-- A node of a graph. -/
inductive GraphNode where
  | leaf (frame : NodeFrame) (action : Action)
  | map (frame : NodeFrame) (spec : MapSpec) (inner : GraphNode)
  | subgraph (frame : NodeFrame) (mappings : FieldMappings) (graph : GraphFrame)
    (nodes : List (String × GraphNode))

/-- The frame of a node. -/
def GraphNode.frame : GraphNode → NodeFrame
  | .leaf frame _ => frame
  | .map frame _ _ => frame
  | .subgraph frame _ _ _ => frame

/-- A graph: its frame and its nodes under their ids. -/
structure Graph where
  frame : GraphFrame
  nodes : List (String × GraphNode)

/-- What a run comes to, and the state of its thread. -/
inductive RunResult where
  | complete (state : State)
  | suspended (pending : PendingInterrupt) (state : State)
  | failed (error : RunError) (state : State)

/-- The state at the end of a run. -/
def RunResult.state : RunResult → State
  | .complete s => s
  | .suspended _ s => s
  | .failed _ s => s

end WorkflowGraph
