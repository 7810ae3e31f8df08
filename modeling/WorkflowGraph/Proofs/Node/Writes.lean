import WorkflowGraph.Graph.Run
import WorkflowGraph.Proofs.Node.Execution

/-!
# What nodes write

What an outcome of a node writes does not depend on what the world answers. An action writes the same
fields in the same order whenever it comes to an outcome of its own (`Action.fieldsOn`), and so does
a map; a subgraph takes some of the fields back that its mappings name. The frame around a node does
not add to them, because a node that is skipped, or goes on after a failure, writes nothing
(`GraphNode.runner_comes`). So a node writes its own fields only (`GraphNode.runner_writes`). What
the node inside a map writes is collected and stays inside.
-/

set_option autoImplicit false

namespace WorkflowGraph

open Activity

/-- Whether a result, where it is an outcome, writes certain fields only. -/
def WritesOnly {ε : Type} (fields : String → Prop) (r : Except ε NodeOutcome) : Prop :=
  ∀ outcome, r = .ok outcome → ∀ field ∈ outcome.update.fields, fields field

/-- Whether a result, where it is an outcome, writes the fields of a list in their order. -/
def WritesInOrder {ε : Type} (fields : List String) (r : Except ε NodeOutcome) : Prop :=
  ∀ outcome, r = .ok outcome → outcome.update.fields = fields

theorem writesInOrder_error {ε : Type} (fields : List String) (e : ε) :
    WritesInOrder fields (.error e) := by
  rintro outcome ⟨⟩

theorem writesInOrder_single {ε : Type} (field : String) (value : Value) :
    WritesInOrder [field] (.ok (.proceed (.single field value)) : Except ε _) := by
  rintro outcome ⟨⟩
  rfl

theorem WritesInOrder.map {ε α : Type} {fields : List String} (result : Except ε α)
    {outcome : α → NodeOutcome} (h : ∀ a, (outcome a).update.fields = fields) :
    WritesInOrder fields (result.map outcome) := by
  cases result with
  | error e => exact writesInOrder_error fields e
  | ok a =>
    rintro _ ⟨⟩
    exact h a

/-! ## Actions -/

theorem TransformNode.behaviour_fields (n : TransformNode) (id : String) (v : Visit) :
    (n.behaviour id v).Obeys (fun _ => True) fun a => WritesInOrder [n.output] a.result :=
  obeys_bind (obeys_trivial _) fun result _ => WritesInOrder.map result fun _ => rfl

theorem RouterNode.behaviour_fields (n : RouterNode) (id : String) (v : Visit) :
    (n.behaviour id v).Obeys (fun _ => True) fun a => WritesInOrder [n.field] a.result := by
  unfold RouterNode.behaviour
  split
  · exact writesInOrder_single _ _
  · exact obeys_bind (obeys_trivial _) fun result _ => WritesInOrder.map result fun _ => rfl

theorem AgentNode.fields_update (n : AgentNode) (t : Transcript) :
    (n.update t).fields = n.messagesField :: n.output.toList := by
  unfold update
  cases n.output <;> rfl

theorem AgentNode.behaviour_fields (n : AgentNode) (id : String) (v : Visit) :
    (n.behaviour id v).Obeys (fun _ => True) fun a =>
      WritesInOrder (n.messagesField :: n.output.toList) a.result :=
  obeys_bind (obeys_trivial _) fun result _ => WritesInOrder.map result n.fields_update

/-- The field that an interrupt writes: its message first, and then the value that it is entered
again with. -/
def InterruptNode.fieldOn (n : InterruptNode) : Option Value → String
  | none => n.output
  | some _ => n.resumeKey

theorem InterruptNode.behaviour_fields (n : InterruptNode) (id : String) (v : Visit) :
    (n.behaviour id v).Obeys (fun _ => True) fun a => WritesInOrder [n.fieldOn v.resume] a.result := by
  unfold InterruptNode.behaviour
  cases v.resume with
  | some value => exact writesInOrder_single _ _
  | none => exact obeys_bind (obeys_trivial _) fun result _ => WritesInOrder.map result fun _ => rfl

namespace PassthroughSpec

/-- The fields that a passthrough writes. -/
def fields (spec : PassthroughSpec) : List String :=
  spec.set.names ++ spec.copy.names ++ spec.increment.names

theorem fields_increments {id : String} {s : State} {spec : List (String × Number)}
    {writes : List (String × Value)} (h : increments id s spec = .ok writes) :
    writes.map Prod.fst = spec.map Prod.fst := by
  induction spec generalizing writes with
  | nil =>
    cases h
    rfl
  | cons p rest ih =>
    unfold increments at h
    split at h
    · cases h
    · cases h
    · next hmore =>
      cases h
      rw [List.map_cons, List.map_cons, ih hmore]

theorem fields_update {spec : PassthroughSpec} {id : String} {s : State} {u : Update}
    (h : spec.update id s = .ok u) : u.fields = spec.fields := by
  unfold update at h
  dsimp only at h
  cases hadded : increments id s spec.increment with
  | error e =>
    rw [hadded] at h
    cases h
  | ok added =>
    rw [hadded] at h
    cases h
    rw [Update.fields, List.map_append, List.map_append, fields_increments hadded, List.map_map]
    rfl

theorem behaviour_fields (spec : PassthroughSpec) (id : String) (v : Visit) :
    (spec.behaviour id v).Obeys (fun _ => True) fun a => WritesInOrder spec.fields a.result := by
  intro outcome houtcome
  cases hupdate : spec.update id v.state with
  | error e =>
    simp only [Attempt.of, hupdate, Except.map] at houtcome
    cases houtcome
  | ok u =>
    simp only [Attempt.of, hupdate, Except.map] at houtcome
    cases houtcome
    exact fields_update hupdate

end PassthroughSpec

/-- The fields that an action writes in an outcome of its own, with or without a value that it is
entered again with. -/
def Action.fieldsOn : Action → Option Value → List String
  | .transform node, _ => [node.output]
  | .router node, _ => [node.field]
  | .agent node, _ => node.messagesField :: node.output.toList
  | .interrupt node, resume => [node.fieldOn resume]
  | .passthrough spec, _ => spec.fields

theorem Action.behaviour_fields (action : Action) (id : String) (v : Visit) :
    (action.behaviour id v).Obeys (fun _ => True) fun a =>
      WritesInOrder (action.fieldsOn v.resume) a.result := by
  cases action with
  | transform node => exact node.behaviour_fields id v
  | router node => exact node.behaviour_fields id v
  | agent node => exact node.behaviour_fields id v
  | interrupt node => exact node.behaviour_fields id v
  | passthrough spec => exact spec.behaviour_fields id v

/-- Whether a field is among those that an action writes. -/
def Action.Writes : Action → String → Prop
  | .transform node, field => field = node.output
  | .router node, field => field = node.field
  | .agent node, field => field = node.messagesField ∨ node.output = some field
  | .interrupt node, field => field = node.output ∨ field = node.resumeKey
  | .passthrough spec, field =>
    field ∈ spec.set.names ++ spec.copy.names ++ spec.increment.names

theorem Action.writes_of_mem_fieldsOn {action : Action} {resume : Option Value} {field : String}
    (h : field ∈ action.fieldsOn resume) : action.Writes field := by
  cases action with
  | transform node => exact List.mem_singleton.1 h
  | router node => exact List.mem_singleton.1 h
  | agent node => exact (List.mem_cons.1 h).imp_right Option.mem_toList.1
  | interrupt node =>
    cases resume with
    | none => exact .inl (List.mem_singleton.1 h)
    | some value => exact .inr (List.mem_singleton.1 h)
  | passthrough spec => exact h

/-! ## Nodes around other nodes -/

theorem MapNode.behaviour_fields (n : MapNode) (id : String) (inner : Runner) (v : Visit) :
    (n.behaviour id inner v).Obeys (fun _ => True) fun a =>
      WritesInOrder [n.spec.collect] a.result := by
  unfold MapNode.behaviour
  split
  · exact writesInOrder_error _ _
  · exact writesInOrder_single _ _
  · refine obeys_bind (obeys_trivial _) fun runs _ => ?_
    unfold MapNode.join
    dsimp only
    split
    · exact writesInOrder_single _ _
    · exact writesInOrder_error _ _

namespace FieldMappings

/-- Only fields that a mapping names are taken back, and of these only those that are there. -/
theorem fields_back_subset (mapping : Dict String) (s : State) :
    (back mapping s).fields ⊆ mapping.values := by
  intro field hfield
  obtain ⟨⟨_, value⟩, hwrite, rfl⟩ := List.mem_map.1 hfield
  obtain ⟨⟨inside, outside⟩, hmem, hsome⟩ := List.mem_filterMap.1 hwrite
  obtain ⟨found, _, hpair⟩ := Option.map_eq_some_iff.1 hsome
  cases hpair
  exact List.mem_map.2 ⟨_, hmem, rfl⟩

theorem outcome_writes (m : FieldMappings) (id name : String) (r : RunResult) :
    WritesOnly (fun field => field ∈ m.output.values ∨ field ∈ m.interrupt.values)
      (m.outcome id name r) := by
  cases r with
  | complete s =>
    rintro _ ⟨⟩ field hfield
    exact .inl (fields_back_subset _ _ hfield)
  | suspended pending s =>
    rintro _ ⟨⟩ field hfield
    exact .inr (fields_back_subset _ _ hfield)
  | failed e s => rintro _ ⟨⟩

theorem behaviour_writes (m : FieldMappings) (id : String) (g : GraphFrame)
    (runner? : String → Option Runner) (v : Visit) :
    (m.behaviour id g runner? v).Obeys (fun _ => True) fun a =>
      WritesOnly (fun field => field ∈ m.output.values ∨ field ∈ m.interrupt.values) a.result := by
  unfold behaviour
  dsimp only
  split
  · exact obeys_bind (obeys_trivial _) fun r _ => m.outcome_writes id g.name r
  · refine obeys_bind (obeys_trivial _) ?_
    rintro (e | _) _
    · rintro _ ⟨⟩
    · exact obeys_bind (obeys_trivial _) fun r _ => m.outcome_writes id g.name r

end FieldMappings

/-! ## The frame around a node -/

namespace GraphNode

/-- Whether a field is among those that a node writes. -/
def Writes : GraphNode → String → Prop
  | .leaf _ action, field => action.Writes field
  | .map _ spec _, field => field = spec.collect
  | .subgraph _ mappings _ _, field =>
    field ∈ mappings.output.values ∨ field ∈ mappings.interrupt.values

/-- The fields that a node writes in every outcome of its own. Which fields a graph inside it gives
back depends on what it holds. -/
def fieldsOn? : GraphNode → Option Value → Option (List String)
  | .leaf _ action, resume => some (action.fieldsOn resume)
  | .map _ spec _, _ => some [spec.collect]
  | .subgraph _ _ _ _, _ => none

/-- What is known of the fields that an outcome of a node writes. -/
structure Tells (node : GraphNode) (resume : Option Value) (outcome : NodeOutcome) : Prop where
  only : ∀ field ∈ outcome.update.fields, node.Writes field
  all : ∀ fields, node.fieldsOn? resume = some fields → outcome.update.fields = fields

variable (node : GraphNode) (s : State) (scope : Scope) (resume : Option Value)

/-- **The outcomes of a node write its fields**, with whatever state and value it is entered, and
whatever the world answers, unless it is skipped or goes on after a failure. -/
theorem runner_comes :
    (node.runner s scope resume).Obeys (fun _ => True)
      (node.frame.Comes s resume (node.Tells resume)) := by
  cases node with
  | leaf frame action =>
    refine NodeFrame.execute_comes ?_
    rintro v - rfl
    refine (action.behaviour_fields frame.id v).mono (fun _ h => h) fun a ha outcome houtcome => ?_
    have hfields := ha outcome houtcome
    refine ⟨fun field hfield => Action.writes_of_mem_fieldsOn (hfields ▸ hfield), ?_⟩
    rintro _ ⟨⟩
    exact hfields
  | map frame spec inner =>
    refine NodeFrame.execute_comes ?_
    rintro v - rfl
    refine (MapNode.behaviour_fields ⟨spec, inner.frame.output⟩ frame.id _ v).mono (fun _ h => h)
      fun a ha outcome houtcome => ?_
    have hfields := ha outcome houtcome
    refine ⟨fun field hfield => List.mem_singleton.1 (hfields ▸ hfield), ?_⟩
    rintro _ ⟨⟩
    exact hfields
  | subgraph frame mappings graph nodes =>
    refine NodeFrame.execute_comes fun v _ _ => ?_
    refine (mappings.behaviour_writes frame.id graph _ v).mono (fun _ h => h)
      fun a ha outcome houtcome => ⟨ha outcome houtcome, ?_⟩
    rintro _ ⟨⟩

/-- The outcomes of a node write its own fields only. -/
theorem runner_writes :
    (node.runner s scope resume).Obeys (fun _ => True) fun r => WritesOnly node.Writes r.result := by
  refine (node.runner_comes s scope resume).mono (fun _ h => h) fun r hr => ?_
  refine NodeFrame.Comes.yields (fun _ field hfield => ?_) (hr.imp fun _ h => h.only)
  cases hfield

end GraphNode

end WorkflowGraph
