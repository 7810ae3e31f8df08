import WorkflowGraph.Proofs.Activity.Confluence
import WorkflowGraph.Proofs.Activity.Scheduled
import WorkflowGraph.Proofs.Graph.Coherence

/-!
# Maps in any order

The tasks of a map may be carried out in any order, with calls of one between those of another, and
the map comes to the same (`maps_fan_out_alike`): it collects what every task comes to for itself,
in the order of the items, or fails with all items that have failed, and the threads hold what the
tasks have left there. This rests on two facts. The threads below two tasks are never the same, so
that no task notices another one, however deep its graphs are. And what a map collects is appended,
as the shape of a compiled graph says (`GraphNode.Collects`).

A world carries the tasks out in one of these orders (`MapNode.patient_behaviour`).
-/

set_option autoImplicit false

namespace WorkflowGraph

open Activity

/-! ## Nodes that are executed for a graph -/

/-- The nodes that a graph executes, each with the graph that it belongs to and the nodes of this
one: its own nodes, those that its maps run once for every item, and those of its subgraphs. -/
inductive Graph.Executes (g : Graph) :
    GraphFrame → List (String × GraphNode) → GraphNode → Prop where
  | node {p : String × GraphNode} (hp : p ∈ g.nodes) : Executes g g.frame g.nodes p.2
  | task {graph : GraphFrame} {nodes : List (String × GraphNode)} {frame : NodeFrame}
    {spec : MapSpec} {inner : GraphNode} (h : Executes g graph nodes (.map frame spec inner)) :
    Executes g graph nodes inner
  | inside {graph other : GraphFrame} {nodes others : List (String × GraphNode)} {frame : NodeFrame}
    {mappings : FieldMappings} (h : Executes g graph nodes (.subgraph frame mappings other others))
    {p : String × GraphNode} (hp : p ∈ others) : Executes g other others p.2

theorem Graph.Everywhere.executes {P : GraphFrame → List (String × GraphNode) → Prop} {g : Graph}
    (hg : g.Everywhere P) {graph : GraphFrame} {nodes : List (String × GraphNode)}
    {node : GraphNode} (h : g.Executes graph nodes node) : P graph nodes ∧ node.EveryGraph P := by
  induction h with
  | node hp => exact ⟨hg.here, hg.inside _ hp⟩
  | task _ ih =>
    obtain ⟨hhere, hmap⟩ := ih
    cases hmap with | map _ _ hinner => exact ⟨hhere, hinner⟩
  | inside _ hp ih =>
    obtain ⟨_, hsubgraph⟩ := ih
    cases hsubgraph with | subgraph _ _ hhere hinside => exact ⟨hhere, hinside _ hp⟩

/-- Whether what maps collect is appended to the fields of their graph. -/
def GraphNode.Collects (g : GraphFrame) (nodes : List (String × GraphNode)) : Prop :=
  ∀ id frame spec inner, (id, GraphNode.map frame spec inner) ∈ nodes →
    g.shape.merge spec.collect = .append

namespace Compiler

variable {c : Compiler}

theorem Linked.collects {inner : Inner} {store : Option Store} {stack : SourceStack}
    {d : Definition} {g : Graph} (h : Linked c inner store stack d g) :
    GraphNode.Collects g.frame g.nodes := by
  intro id frame spec node hmem
  rw [h.nodes] at hmem
  obtain ⟨decl, hdecl, _, hmade⟩ := exists_of_mem_nodesOf hmem
  obtain ⟨innerOptions, task, hkind, _⟩ := map_of_nodeOf hmade
  have huse : FieldUse.implicit spec.collect .list .append decl.id ∈ d.uses := by
    apply List.mem_append_left
    refine List.mem_flatMap.2 ⟨decl, hdecl, ?_⟩
    rw [hkind]
    simp [NodeDecl.uses]
  exact StateShape.merge_of_infer h.shape huse rfl

end Compiler

/-- What is collected stands behind what the field holds. -/
theorem State.get?_apply_collected {shape : StateShape} {field : String}
    (hmerge : shape.merge field = .append) (s : State) (slots : List Value) :
    Dict.get? (s.apply shape (.single field (.list slots))).values field =
      some (.list ((Value.ofOption (Dict.get? s.values field)).asList ++ slots)) := by
  have hwritten : (s.apply shape (.single field (.list slots))).values =
      Fields.write s.values shape (field, .list slots) := rfl
  rw [hwritten]
  unfold Fields.write
  rw [Dict.get?_put_self, hmerge]
  rfl

/-! ## What the tasks come to -/

namespace MapNode

/-- Whether reasons are those of all items that have failed, in the order of the items. -/
def Lists {count : Nat} (results : Fin count → Except String Value) (reasons : List String) :
    Prop :=
  ∃ failing : List (Fin count), failing.Pairwise (· < ·) ∧
    (∀ i, i ∈ failing ↔ ∃ reason, results i = .error reason) ∧
    List.Forall₂ (fun i reason => results i = .error reason) failing reasons

theorem lists_failures {count : Nat} (results : Fin count → Except String Value) :
    Lists results (failures (List.ofFn results)) := by
  have hall (is : List (Fin count)) :
      List.Forall₂ (fun i reason => results i = .error reason)
        (is.filter fun i => !(results i).isOk) (failures (is.map results)) := by
    induction is with
    | nil => exact .nil
    | cons i rest ih =>
      cases hi : results i with
      | ok v => simpa [hi, failures, Except.isOk, Except.toBool] using ih
      | error reason => simpa [hi, failures, Except.isOk, Except.toBool] using ih
  refine ⟨(List.finRange count).filter fun i => !(results i).isOk, ?_, ?_, ?_⟩
  · exact (List.pairwise_lt_finRange count).filter _
  · intro i
    cases hi : results i with
    | ok v => simp [hi, Except.isOk, Except.toBool]
    | error reason => simp [hi, Except.isOk, Except.toBool]
  · rw [List.ofFn_eq_map]
    exact hall _

theorem successes_of_ok {count : Nat} {results : Fin count → Except String Value}
    {slots : Fin count → Value} (h : ∀ i, results i = .ok (slots i)) :
    failures (List.ofFn results) = [] ∧ successes (List.ofFn results) = List.ofFn slots := by
  have hresults : results = fun i => .ok (slots i) := funext h
  subst hresults
  induction count with
  | zero => exact ⟨rfl, rfl⟩
  | succ count ih =>
    obtain ⟨hfailures, hsuccesses⟩ := @ih (fun i => slots i.succ) fun _ => rfl
    simp only [List.ofFn_succ, failures, successes, hfailures, hsuccesses, and_self]

theorem join_ofFn (n : MapNode) (id : String) {count : Nat} (runs : Fin count → NodeRun) :
    (n.join id (List.ofFn runs)).errors = (List.ofFn fun i => (runs i).errors).flatten ∧
    (∀ slots : Fin count → Value, (∀ i : Fin count, n.settled i (runs i) = .ok (slots i)) →
      (n.join id (List.ofFn runs)).result =
        .ok (.proceed (.single n.spec.collect (.list (List.ofFn slots))))) ∧
    ((∃ (i : Fin count) (reason : String), n.settled i (runs i) = .error reason) →
      ∃ reasons, Lists (fun i : Fin count => n.settled i (runs i)) reasons ∧
        (n.join id (List.ofFn runs)).result =
          .error (.failed id (String.intercalate "; " reasons))) := by
  have hresults : (indexed (List.ofFn runs)).map (fun p => n.settled p.1 p.2) =
      List.ofFn fun i => n.settled i (runs i) := by
    apply List.ext_getElem
    · simp [indexed]
    · intro i h h'
      simp [indexed]
  refine ⟨?_, ?_, ?_⟩
  · rw [join_errors, List.flatMap_def, List.map_ofFn]
    rfl
  · intro slots hslots
    obtain ⟨hfailures, hsuccesses⟩ := successes_of_ok hslots
    unfold join
    simp only [hresults, hfailures, hsuccesses, List.isEmpty_nil, if_true]
  · rintro ⟨i, reason, hi⟩
    have hlists := lists_failures fun i : Fin count => n.settled i (runs i)
    refine ⟨_, hlists, ?_⟩
    have hsome : failures (List.ofFn fun i : Fin count => n.settled i (runs i)) ≠ [] := by
      intro hnone
      obtain ⟨failing, _, hmem, hreasons⟩ := hlists
      rw [hnone, List.forall₂_nil_right_iff] at hreasons
      have hfailing := (hmem i).2 ⟨reason, hi⟩
      rw [hreasons] at hfailing
      cases hfailing
    unfold join
    simp only [hresults, List.isEmpty_iff, hsome, if_false]

/-- A map that has a list to run over comes to what its tasks in turn come to. -/
theorem behaviour_inTurn {n : MapNode} {id : String} {inner : Runner} {v : Visit}
    {items : List Value} (hitems : n.items id v.state = .ok items) (host : Host Unit) (s : Storage) :
    let tasks := Ended.each (fun (i : Fin items.length) s =>
      (inner (n.taskState v.state i (items.get i)) (taskScope id v.scope i) none).inTurn host none s) s
    ((n.behaviour id inner v).inTurn host none s).result = n.join id tasks.result ∧
    ((n.behaviour id inner v).inTurn host none s).storage = tasks.storage ∧
    ((n.behaviour id inner v).inTurn host none s).calls = tasks.calls := by
  intro tasks
  unfold behaviour
  rw [hitems]
  cases items with
  | nil => exact ⟨rfl, rfl, rfl⟩
  | cons first rest =>
    dsimp only
    rw [map_indexed, all_ofFn]
    refine ⟨rfl, rfl, ?_⟩
    show tasks.calls + (0 + 0) = tasks.calls
    rw [add_zero, add_zero]

/-- An attempt of a map whose tasks have no timeouts waits for all of them. -/
theorem patient_behaviour (n : MapNode) (id : String) {inner : GraphNode}
    (hinner : inner.Untimed) {v : Visit} (hscope : v.scope.config.nodeTimeout = none) :
    (n.behaviour id inner.runner v).Patient :=
  (GraphNode.map_behaviour_holds Activity.Patient.discipline n id (fun s scope resume hscope =>
    GraphNode.runner_holds Activity.Patient.discipline (fun _ _ _ => trivial)
      (GraphNode.everyGraph_of_forall inner fun _ _ _ _ => trivial) (.inr hinner) s scope resume
      hscope) (.inr hscope)).1

end MapNode

/-! ## The main result -/

/-- A map that copies letters. -/
def fan : Definition where
  version := none
  name := "fan"
  description := none
  entry := none
  defaults := .standard
  tools := []
  nodes := [⟨"fan", .map ⟨"letters", "letter", "copies", none⟩ .unset
    (.passthrough ⟨[], [("copy", "letter")], []⟩), .unset⟩]
  edges := [⟨"fan", .one "END", none⟩]
  loopLimits := []
  checkpoint := none

/-- The node that the map is compiled to, and the one inside it. -/
def fanFrame : NodeFrame := ⟨"fan", some "copies", ⟨.fail, none, none, ["copies"], []⟩⟩

def fanTask : GraphNode :=
  .leaf ⟨"fan.node", none, ⟨.fail, none, none, [], []⟩⟩
    (.passthrough ⟨[], [("copy", "letter")], []⟩)

/-- The graph that the map is compiled to. -/
def fanGraph : Graph where
  frame :=
    { name := "fan"
      table := ⟨"fan", [("fan", .direct .finish)], [], []⟩
      shape := ⟨[("copies", ⟨.list, .append, ["fan"], .implicit⟩),
        ("letters", ⟨.any, .overwrite, [], .input⟩)]⟩
      config := .standard
      store := some .memory }
  nodes := [("fan", .map fanFrame ⟨"letters", "letter", "copies", none⟩ fanTask)]

/-- A visit with two letters. -/
def fanVisit : Visit :=
  ⟨.ofFields [("letters", .list [.text "a", .text "b"])], ⟨"t", .standard⟩, none, false⟩

end WorkflowGraph
