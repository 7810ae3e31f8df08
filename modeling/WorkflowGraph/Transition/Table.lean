import WorkflowGraph.Transition.Basic
import WorkflowGraph.Transition.Component

/-!
# Transition tables

The table of a definition holds one transition per node, made from the edges that
leave it or from the routes of a router. Conditional edges keep their order, and
an edge without condition is the fallback wherever it stands. Every node has to be
reachable from the entry, and every member of a cycle needs a limit on how often
it is visited.

A graph is given by the successors of a node. The nodes that can be reached are
found in rounds: each round adds the successors of the nodes that the round
before has added, until no new node appears.
-/

set_option autoImplicit false

namespace WorkflowGraph.Reach

/-- Nodes of a list that are not among others, each once. -/
def fresh (seen : List String) : List String → List String
  | [] => []
  | n :: rest => if seen.contains n then fresh seen rest else n :: fresh (n :: seen) rest

/-- Add the successors of a frontier, and then of what has been added, for at most
`fuel` rounds. -/
def expand (next : String → List String) : Nat → List String → List String → List String
  | 0, _, seen => seen
  | fuel + 1, frontier, seen =>
    let new := fresh seen (frontier.flatMap next)
    if new.isEmpty then seen else expand next fuel new (seen ++ new)

/-- The nodes that are reached from a node by any number of steps. `bound` must be at
least the number of nodes of the graph. -/
def closure (next : String → List String) (bound : Nat) (start : String) : List String :=
  expand next bound [start] [start]

end WorkflowGraph.Reach

namespace WorkflowGraph

/-- The transitions of a graph, the limits of its nodes, and its cycles. -/
structure TransitionTable where
  entry : String
  transitions : Dict Transition
  limits : Dict Nat
  cycles : List (List String)

/-- An edge as it is shown. -/
structure EdgeView where
  source : String
  target : String
  label : Option String
  deriving DecidableEq, Repr

/-- What the edges that leave a node amount to. -/
structure Outgoing where
  branches : List (Condition × Target)
  plain : List Target
  ambiguous : Bool
  errors : List CompileError

namespace Outgoing

/-- No edges. -/
def none : Outgoing := ⟨[], [], false, []⟩

/-- Take the edges of a node into account one after the other. An edge without
condition that has several targets ends this. -/
def gather (node : String) : List (Nat × EdgeDecl) → Outgoing → Outgoing
  | [], out => out
  | (index, e) :: rest, out =>
    match e.condition with
    | .none =>
      if 1 < e.targets.length then { out with ambiguous := true }
      else gather node rest { out with plain := out.plain ++ e.targets.map Target.ofName }
    | some source =>
      match Condition.parse source with
      | .ok c =>
        gather node rest
          { out with branches := out.branches ++ e.targets.map fun t => (c, Target.ofName t) }
      | .error err =>
        gather node rest { out with errors := out.errors ++ [.condition index node err] }

end Outgoing

/-- The transition that the edges of a node make, and the errors found in them. -/
def Transition.ofEdges (node : String) (edges : List (Nat × EdgeDecl)) :
    Option Transition × List CompileError :=
  let out := Outgoing.gather node edges .none
  if out.ambiguous || 1 < out.plain.length then
    (none, out.errors ++ [.definition (.ambiguousTransition node)])
  else
    match out.branches, out.plain with
    | [], target :: _ => (some (.direct target), out.errors)
    | [], [] =>
      if edges.isEmpty then (none, out.errors ++ [.definition (.missingTransition node)])
      else (none, out.errors)
    | branches, plain => (some (.conditional branches plain.head?), out.errors)

/-- The transition that the routes of a router make. -/
def Transition.ofRoutes (node : NodeDecl) (spec : RouterSpec) : Transition :=
  .route node.routeField (spec.routes.mapValues Target.ofName)
    (spec.defaultRoute.map Target.ofName)

namespace Definition

/-- The edges that leave a node, with their indices. -/
def edgesOf (d : Definition) (node : String) : List (Nat × EdgeDecl) :=
  ((List.range d.edges.length).zip d.edges).filter fun p => p.2.source == node

/-- The transition of a node, and the errors found in it. -/
def transitionOf (d : Definition) (node : NodeDecl) : Option Transition × List CompileError :=
  match node.kind with
  | .router spec => (some (.ofRoutes node spec), [])
  | _ => Transition.ofEdges node.id (d.edgesOf node.id)

/-- The transitions of all nodes. -/
def transitions (d : Definition) : Dict Transition :=
  d.nodes.foldl
    (fun acc node =>
      match (d.transitionOf node).1 with
      | some t => Dict.put acc node.id t
      | none => acc)
    []

/-- The limit that the members of a cycle have where they declare none: the least one
that a member declares, else the one of the defaults. -/
def inheritedLimit? (d : Definition) (cycle : List String) : Option Nat :=
  match (cycle.filterMap d.loopLimits.get?).min? with
  | some n => some n
  | none => d.defaults.loopLimit

/-- Give a member of a cycle the limit that it inherits, unless it has one. A member that
inherits none is missing. -/
def grantLimit (inherited : Option Nat) (acc : Dict Nat × List String) (member : String) :
    Dict Nat × List String :=
  if acc.1.has member then acc
  else
    match inherited with
    | some n => (acc.1.put member n, acc.2)
    | none => (acc.1, acc.2 ++ [member])

/-- Give the members of a cycle their limits. -/
def grantLimits (d : Definition) (acc : Dict Nat × List String) (cycle : List String) :
    Dict Nat × List String :=
  cycle.foldl (grantLimit (d.inheritedLimit? cycle)) acc

/-- The limits of all nodes: the declared ones, and those that members of cycles inherit. -/
def assignLimits (d : Definition) (cycles : List (List String)) :
    Except CompileError (Dict Nat) :=
  let (limits, missing) := cycles.foldl d.grantLimits (d.loopLimits, [])
  if missing.isEmpty then .ok limits else .error (.cycleWithoutLimit missing)

end Definition

namespace TransitionTable

/-- The successors of a node in a dictionary of transitions. -/
def successorsIn (transitions : Dict Transition) (node : String) : List String :=
  match transitions.get? node with
  | some t => t.successors
  | none => []

/-- A number that is not exceeded by the number of nodes that transitions mention. -/
def bound : Dict Transition → Nat
  | [] => 1
  | (_, t) :: rest => t.targets.length + 1 + bound rest

/-- The table of a definition, and all errors that were found on the way. The search for
cycles looks at every edge and leaves every node once, so that twice the bound is enough. -/
def draft (d : Definition) (entry : String) : TransitionTable × List CompileError :=
  let transitions := d.transitions
  let next := successorsIn transitions
  let reached := Reach.closure next (bound transitions) entry
  let unreachable := (d.nodeIds.filter fun id => !reached.contains id).map fun id =>
    CompileError.definition (.unreachableNode id entry)
  let cycles := Search.cycles next (2 * bound transitions) d.nodeIds
  let errors := (d.nodes.flatMap fun n => (d.transitionOf n).2) ++ unreachable
  match d.assignLimits cycles with
  | .ok limits => (⟨entry, transitions, limits, cycles⟩, errors)
  | .error e => (⟨entry, transitions, Dict.empty, cycles⟩, errors ++ [e])

/-- The table of a definition. -/
def ofDefinition (d : Definition) : Except (List CompileError) TransitionTable :=
  match d.entryPoint? with
  | none => .error [.definition (.missingKey "nodes")]
  | some entry =>
    let (table, errors) := draft d entry
    if errors.isEmpty then .ok table else .error errors

/-- The transition of a node. -/
def transition? (t : TransitionTable) (node : String) : Option Transition :=
  t.transitions.get? node

/-- The nodes that come next after a node, once per edge. -/
def successors (t : TransitionTable) (node : String) : List String :=
  successorsIn t.transitions node

/-- How often a node may be visited. -/
def limit? (t : TransitionTable) (node : String) : Option Nat := t.limits.get? node

/-- Whether a node lies on a cycle. -/
def inCycle (t : TransitionTable) (node : String) : Bool :=
  t.cycles.any fun c => c.contains node

/-- The node that comes after a node in a state; nothing where the run is complete. -/
def next (t : TransitionTable) (node : String) (fields : Fields) :
    Except RunError (Option String) :=
  match t.transition? node with
  | none => .error (.noMatchingTransition node)
  | some transition => (transition.choose node fields).map Target.node?

/-- The edges of one node. -/
def edgesOf (node : String) : Transition → List EdgeView
  | .direct target => [⟨node, target.name, none⟩]
  | .conditional branches fallback =>
    (branches.map fun b => ⟨node, b.2.name, some b.1.source⟩) ++
      fallback.toList.map fun target => ⟨node, target.name, some "else"⟩
  | .route _ routes fallback =>
    (routes.map fun r => ⟨node, r.2.name, some r.1⟩) ++
      fallback.toList.map fun target => ⟨node, target.name, some "default"⟩

/-- Every edge: the one that leads to the entry, and then those of the nodes in the
order of their ids. -/
def edges (t : TransitionTable) : List EdgeView :=
  ⟨startMarker, t.entry, none⟩ :: t.transitions.flatMap fun p => edgesOf p.1 p.2

end TransitionTable

end WorkflowGraph
