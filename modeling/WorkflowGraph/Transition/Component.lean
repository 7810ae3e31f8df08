import WorkflowGraph.Dict

/-!
# Strongly connected components

A graph is given by the successors of a node. One search from every node finds its
strongly connected components. The search keeps the nodes that are under way in
frames of its own, so that a long path costs no depth of calls, and for every node
the least number that is known to be reached from it without leaving the stack. A
node that reaches no lower number than its own closes the component that lies above
it on the stack.
-/

set_option autoImplicit false

namespace WorkflowGraph

/-- A node that is under way, and the successors of it that have not been looked at. -/
structure Search.Frame where
  node : String
  ahead : List String

/-- A search: the number of the next node, the numbers of the nodes that have been
found, the lowest number known for each, the found nodes that are in no component
yet, the nodes under way from the inside out, and the components in the order in
which they were closed. -/
structure Search where
  count : Nat
  numbers : Dict Nat
  lows : Dict Nat
  stack : List String
  frames : List Search.Frame
  components : List (List String)

namespace Search

/-- The search that has found nothing. -/
def start : Search := ⟨0, Dict.empty, Dict.empty, [], [], []⟩

/-- Whether a node has been found. -/
def found (s : Search) (node : String) : Bool := s.numbers.has node

/-- The number of a node that has been found. -/
def number (s : Search) (node : String) : Nat := (s.numbers.get? node).getD 0

/-- The lowest number that is known to be reached from a node. -/
def low (s : Search) (node : String) : Nat := (s.lows.get? node).getD 0

/-- Find a node: it gets the next number and is under way from now on. -/
def enter (next : String → List String) (s : Search) (node : String) : Search :=
  { s with
    count := s.count + 1
    numbers := s.numbers.put node s.count
    lows := s.lows.put node s.count
    stack := node :: s.stack
    frames := ⟨node, next node⟩ :: s.frames }

/-- Take into account that a number is reached from a node. -/
def lower (s : Search) (node : String) (n : Nat) : Search :=
  { s with lows := s.lows.put node (min (s.low node) n) }

/-- What lies on the stack down to a node, and what lies below it. -/
def cut (node : String) : List String → List String × List String
  | [] => ([], [])
  | m :: rest => if m = node then ([m], rest) else (m :: (cut node rest).1, (cut node rest).2)

/-- Close the component of a node that reaches nothing below itself. -/
def close (s : Search) (node : String) : Search :=
  if s.low node = s.number node then
    { s with
      stack := (cut node s.stack).2
      components := s.components ++ [(cut node s.stack).1] }
  else s

/-- Look at a successor of a node. -/
def look (next : String → List String) (s : Search) (node m : String) : Search :=
  if !s.found m then s.enter next m
  else if s.stack.contains m then s.lower node (s.number m)
  else s

/-- Leave a node: what it reaches is reached from the node outside of it as well. -/
def leave (s : Search) (node : String) : Search :=
  match s.frames with
  | [] => s.close node
  | outer :: _ => (s.lower outer.node (s.low node)).close node

/-- Look at the next successor of the innermost node, or leave it. -/
def step (next : String → List String) (s : Search) : Search :=
  match s.frames with
  | [] => s
  | ⟨node, m :: ahead⟩ :: outer => look next { s with frames := ⟨node, ahead⟩ :: outer } node m
  | ⟨node, []⟩ :: outer => leave { s with frames := outer } node

/-- Go on until no node is under way, for at most a number of steps. -/
def run (next : String → List String) : Nat → Search → Search
  | 0, s => s
  | steps + 1, s => if s.frames.isEmpty then s else run next steps (step next s)

/-- Search from a node where it has not been found yet. -/
def visit (next : String → List String) (steps : Nat) (s : Search) (node : String) : Search :=
  if s.found node then s else run next steps (s.enter next node)

/-- Search from every node of a list, one after the other. -/
def visitAll (next : String → List String) (steps : Nat) (nodes : List String) : Search :=
  nodes.foldl (visit next steps) start

end Search

/-! ## Cycles -/

/-- Insert an element before the elements whose keys are not smaller. -/
def insertBy {α : Type} (key : α → Nat) (x : α) : List α → List α
  | [] => [x]
  | y :: rest => if key x ≤ key y then x :: y :: rest else y :: insertBy key x rest

/-- Sort by rising keys; elements with one key keep their order. -/
def sortBy {α : Type} (key : α → Nat) : List α → List α
  | [] => []
  | x :: rest => insertBy key x (sortBy key rest)

/-- The place of a node in a list of nodes. Of a node that stands there more than once
the last place counts, and a node that does not stand there comes after all others. -/
def placeIn (nodes : List String) : String → Nat :=
  let places := Dict.ofPairs nodes.zipIdx
  fun node => (places.get? node).getD nodes.length

namespace Search

/-- Whether a component contains a cycle: it has several members, or its only member is a
successor of itself. -/
def cyclic (next : String → List String) : List String → Bool
  | [] => false
  | [node] => (next node).contains node
  | _ :: _ :: _ => true

/-- The components that contain a cycle. Members stand in the order of the list of nodes,
and components in the order of their first members. -/
def cycles (next : String → List String) (steps : Nat) (nodes : List String) :
    List (List String) :=
  let place := placeIn nodes
  let found := (visitAll next steps nodes).components.filter (cyclic next)
  sortBy (fun c => (c.head?.map place).getD nodes.length) (found.map (sortBy place))

end Search

end WorkflowGraph
