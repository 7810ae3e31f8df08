import WorkflowGraph.Proofs.Compiler.Wiring
import WorkflowGraph.Proofs.Node.Writes
import WorkflowGraph.Proofs.Shape.Drafting

/-!
# Declared writes and written fields

What a node writes is declared by its kind and its options (`NodeDecl.Declares`). The shape of a
definition is inferred if and only if these declarations do not contradict each other, and then
says of each field what its writers have declared (`NodeDecl.shape_of_declared_writes`). A node is
compiled to one that writes declared fields only, so no outcome of it writes a field that the shape
does not know, or one that the shape merges in another way.
-/

set_option autoImplicit false

namespace WorkflowGraph

namespace NodeDecl

/-- The strategy of a node for the outputs that it names itself. -/
def declaredMerge (options : NodeOptions) : MergeStrategy := options.merge.getD .overwrite

/-- The fields that a node declares to write, each with the strategy of the node for it. -/
inductive Declares (messagesField id : String) (options : NodeOptions) :
    NodeKind → String → MergeStrategy → Prop where
  | transformOutput {spec : TransformSpec} {field : String} (h : options.output = some field) :
    Declares messagesField id options (.transform spec) field (declaredMerge options)
  | route {spec : RouterSpec} :
    Declares messagesField id options (.router spec) (options.output.getD (id ++ "_route"))
      .overwrite
  | agentOutput {spec : AgentSpec} {field : String} (h : options.output = some field) :
    Declares messagesField id options (.agent spec) field (declaredMerge options)
  | messages {spec : AgentSpec} :
    Declares messagesField id options (.agent spec) (spec.messagesField.getD messagesField) .append
  | collect {spec : MapSpec} {innerOptions : NodeOptions} {inner : NodeKind} :
    Declares messagesField id options (.map spec innerOptions inner) spec.collect .append
  | message {spec : InterruptSpec} :
    Declares messagesField id options (.interrupt spec) (options.output.getD (id ++ "_message"))
      (declaredMerge options)
  | resumeKey {spec : InterruptSpec} :
    Declares messagesField id options (.interrupt spec) spec.resumeKey .overwrite
  | mappedBack {spec : SubgraphSpec} {field : String}
    (h : field ∈ spec.outputMapping.values ∨ field ∈ spec.interruptMapping.values) :
    Declares messagesField id options (.subgraph spec) field (declaredMerge options)
  | passed {spec : PassthroughSpec} {field : String}
    (h : field ∈ spec.set.names ++ spec.copy.names ++ spec.increment.names) :
    Declares messagesField id options (.passthrough spec) field (declaredMerge options)

variable {messagesField id : String} {options : NodeOptions} {kind : NodeKind} {field : String}
  {merge : MergeStrategy}

/-- Every declared write is a use. -/
theorem Declares.exists_use (h : Declares messagesField id options kind field merge) :
    ∃ u ∈ uses messagesField id options kind, u.Writes field ∧ u.node = id ∧ u.merge = merge := by
  cases h with
  | transformOutput h =>
    refine ⟨.output field (uses.type id options) (declaredMerge options) id, ?_, ⟨rfl, rfl⟩, rfl, rfl⟩
    simp [uses, h, uses.merge, declaredMerge]
  | route =>
    refine ⟨.implicit (options.output.getD (id ++ "_route")) .string .overwrite id, ?_, ⟨rfl, rfl⟩, rfl, rfl⟩
    simp [uses]
  | agentOutput h =>
    refine ⟨.output field (uses.type id options) (declaredMerge options) id, ?_, ⟨rfl, rfl⟩, rfl, rfl⟩
    simp [uses, h, uses.merge, declaredMerge]
  | @messages spec =>
    refine ⟨.implicit (spec.messagesField.getD messagesField) .list .append id, ?_, ⟨rfl, rfl⟩,
      rfl, rfl⟩
    simp [uses]
  | @collect spec =>
    refine ⟨.implicit spec.collect .list .append id, ?_, ⟨rfl, rfl⟩, rfl, rfl⟩
    simp [uses]
  | message =>
    refine ⟨.output (options.output.getD (id ++ "_message")) (uses.type id options)
      (declaredMerge options) id, ?_, ⟨rfl, rfl⟩, rfl, rfl⟩
    simp [uses, uses.merge, declaredMerge]
  | @resumeKey spec =>
    refine ⟨.implicit spec.resumeKey .any .overwrite id, ?_, ⟨rfl, rfl⟩, rfl, rfl⟩
    simp [uses]
  | mappedBack h =>
    refine ⟨.output field none (declaredMerge options) id, ?_, ⟨rfl, rfl⟩, rfl, rfl⟩
    exact List.mem_append_right _ (List.mem_map.2 ⟨field, List.mem_append.2 h, rfl⟩)
  | @passed spec _ h =>
    rcases List.mem_append.1 h with h | h
    · rcases List.mem_append.1 h with h | h
      · refine ⟨.output field none (declaredMerge options) id, ?_, ⟨rfl, rfl⟩, rfl, rfl⟩
        exact List.mem_append_left _ (List.mem_append_left _ (List.mem_append_right _
          (List.mem_map.2 ⟨field, h, rfl⟩)))
      · obtain ⟨p, hp, rfl⟩ := List.mem_map.1 h
        refine ⟨.output p.1 none (declaredMerge options) id, ?_, ⟨rfl, rfl⟩, rfl, rfl⟩
        exact List.mem_append_left _ (List.mem_append_right _
          (List.mem_flatMap.2 ⟨p, hp, List.mem_cons_self⟩))
    · refine ⟨.output field (some .number) (declaredMerge options) id, ?_, ⟨rfl, rfl⟩, rfl, rfl⟩
      exact List.mem_append_right _ (List.mem_map.2 ⟨field, h, rfl⟩)

/-- Every use that is a write has been declared. -/
theorem declares_of_mem_uses (kind : NodeKind) : ∀ u ∈ uses messagesField id options kind,
    u.isRead = false → u.node = id ∧ Declares messagesField id options kind u.field u.merge := by
  have hreads (paths : List String) : ∀ u ∈ paths.map fun path => FieldUse.input path id,
      u.isRead = false → u.node = id ∧ Declares messagesField id options kind u.field u.merge := by
    rintro u hu hread
    obtain ⟨path, _, rfl⟩ := List.mem_map.1 hu
    cases hread
  cases kind with
  | transform spec =>
    refine List.forall_mem_append.2 ⟨List.forall_mem_append.2 ⟨hreads _, ?_⟩, hreads _⟩
    rintro u hu -
    obtain ⟨field, hfield, rfl⟩ := List.mem_map.1 hu
    exact ⟨rfl, .transformOutput (Option.mem_toList.1 hfield)⟩
  | router spec =>
    refine List.forall_mem_append.2 ⟨List.forall_mem_append.2
      ⟨List.forall_mem_append.2 ⟨hreads _, ?_⟩, hreads _⟩, hreads _⟩
    rintro u hu -
    obtain rfl := List.mem_singleton.1 hu
    exact ⟨rfl, .route⟩
  | agent spec =>
    refine List.forall_mem_append.2 ⟨List.forall_mem_append.2
      ⟨List.forall_mem_append.2 ⟨hreads _, ?_⟩, ?_⟩, hreads _⟩
    · rintro u hu -
      obtain ⟨field, hfield, rfl⟩ := List.mem_map.1 hu
      exact ⟨rfl, .agentOutput (Option.mem_toList.1 hfield)⟩
    · rintro u hu -
      obtain rfl := List.mem_singleton.1 hu
      exact ⟨rfl, .messages⟩
  | map spec innerOptions inner =>
    refine List.forall_mem_append.2 ⟨List.forall_mem_append.2 ⟨hreads _, ?_⟩, ?_⟩
    · refine List.forall_mem_cons.2 ⟨fun _ => ⟨rfl, .collect⟩, List.forall_mem_singleton.2 ?_⟩
      rintro ⟨⟩
    · -- of the inner node only reads are left
      intro u hu hread
      simp [hread] at hu
  | interrupt spec =>
    refine List.forall_mem_append.2 ⟨List.forall_mem_append.2
      ⟨List.forall_mem_append.2 ⟨hreads _, ?_⟩, ?_⟩, hreads _⟩
    · exact List.forall_mem_cons.2 ⟨fun _ => ⟨rfl, .message⟩,
        List.forall_mem_singleton.2 fun _ => ⟨rfl, .resumeKey⟩⟩
    · intro u hu hread
      obtain ⟨_, _, hu⟩ := List.mem_flatMap.1 hu
      exact hreads _ u hu hread
  | subgraph spec =>
    refine List.forall_mem_append.2 ⟨List.forall_mem_append.2 ⟨hreads _, hreads _⟩, ?_⟩
    rintro u hu -
    obtain ⟨field, hfield, rfl⟩ := List.mem_map.1 hu
    exact ⟨rfl, .mappedBack (List.mem_append.1 hfield)⟩
  | passthrough spec =>
    refine List.forall_mem_append.2 ⟨List.forall_mem_append.2
      ⟨List.forall_mem_append.2 ⟨hreads _, ?_⟩, ?_⟩, ?_⟩
    · rintro u hu -
      obtain ⟨field, hfield, rfl⟩ := List.mem_map.1 hu
      exact ⟨rfl, .passed (List.mem_append_left _ (List.mem_append_left _ hfield))⟩
    · intro u hu hread
      obtain ⟨p, hp, hu⟩ := List.mem_flatMap.1 hu
      have hcopied : p.1 ∈ spec.copy.names := List.mem_map.2 ⟨p, hp, rfl⟩
      rcases List.mem_cons.1 hu with rfl | hu
      · exact ⟨rfl, .passed (List.mem_append_left _ (List.mem_append_right _ hcopied))⟩
      · obtain rfl := List.mem_singleton.1 hu
        cases hread
    · rintro u hu -
      obtain ⟨field, hfield, rfl⟩ := List.mem_map.1 hu
      exact ⟨rfl, .passed (List.mem_append_right _ hfield)⟩

end NodeDecl

namespace Definition

/-- The fields that a node of a definition declares to write. -/
def Declares (d : Definition) (n : NodeDecl) (field : String) (merge : MergeStrategy) : Prop :=
  NodeDecl.Declares d.defaults.messagesField n.id n.options n.kind field merge

variable {d : Definition} {field id : String} {merge : MergeStrategy}

/-- The uses that are writes are the declared ones: conditions only read. -/
theorem exists_write_iff :
    (∃ u ∈ d.uses, u.Writes field ∧ u.node = id ∧ u.merge = merge) ↔
      ∃ n ∈ d.nodes, n.id = id ∧ d.Declares n field merge := by
  constructor
  · rintro ⟨u, hu, ⟨hread, rfl⟩, rfl, rfl⟩
    rcases List.mem_append.1 hu with hu | hu
    · obtain ⟨n, hn, hu⟩ := List.mem_flatMap.1 hu
      obtain ⟨hnode, hdeclares⟩ := NodeDecl.declares_of_mem_uses n.kind u hu hread
      exact ⟨n, hn, hnode.symm, hdeclares⟩
    · obtain ⟨e, _, hu⟩ := List.mem_flatMap.1 hu
      obtain ⟨source, _, hu⟩ := List.mem_flatMap.1 hu
      obtain ⟨path, _, rfl⟩ := List.mem_map.1 hu
      cases hread
  · rintro ⟨n, hn, rfl, hdeclares⟩
    obtain ⟨u, hu, hwrites⟩ := hdeclares.exists_use
    exact ⟨u, List.mem_append_left _ (List.mem_flatMap.2 ⟨n, hn, hu⟩), hwrites⟩

/-- Whether no two declarations give one field different strategies. -/
theorem agree_uses_iff : FieldUse.Agree d.uses ↔
    ∀ n ∈ d.nodes, ∀ m ∈ d.nodes, ∀ field s t,
      d.Declares n field s → d.Declares m field t → s = t := by
  constructor
  · intro h n hn m hm field s t hs ht
    obtain ⟨u, hu, huw, _, rfl⟩ := exists_write_iff.2 ⟨n, hn, rfl, hs⟩
    obtain ⟨v, hv, hvw, _, rfl⟩ := exists_write_iff.2 ⟨m, hm, rfl, ht⟩
    exact h u hu v hv field huw hvw
  · intro h u hu v hv field huw hvw
    obtain ⟨n, hn, _, hs⟩ := exists_write_iff.1 ⟨u, hu, huw, rfl, rfl⟩
    obtain ⟨m, hm, _, ht⟩ := exists_write_iff.1 ⟨v, hv, hvw, rfl, rfl⟩
    exact h n hn m hm field _ _ hs ht

/-- The entry of a field in an inferred shape says what the nodes declare. -/
theorem entry_of_declared {shape : StateShape} (h : StateShape.infer d = .ok shape)
    {spec : FieldSpec} (hspec : shape.get? field = some spec) :
    (∀ id, id ∈ spec.writers ↔ ∃ n ∈ d.nodes, n.id = id ∧ ∃ s, d.Declares n field s) ∧
      (∀ n ∈ d.nodes, ∀ s, d.Declares n field s → spec.merge = s) ∧
      ((∀ n ∈ d.nodes, ∀ s, ¬d.Declares n field s) → spec.merge = .overwrite) := by
  have hentry := StateShape.entry_of_infer h hspec
  refine ⟨fun id => (hentry.writers id).trans ⟨?_, ?_⟩, fun n hn s hs => ?_, fun hnone => ?_⟩
  · rintro ⟨u, hu, hw, hnode⟩
    obtain ⟨n, hn, hid, hs⟩ := exists_write_iff.1 ⟨u, hu, hw, hnode, rfl⟩
    exact ⟨n, hn, hid, _, hs⟩
  · rintro ⟨n, hn, hid, s, hs⟩
    obtain ⟨u, hu, hw, hnode, _⟩ := exists_write_iff.2 ⟨n, hn, hid, hs⟩
    exact ⟨u, hu, hw, hnode⟩
  · obtain ⟨u, hu, hw, _, rfl⟩ := exists_write_iff.2 ⟨n, hn, rfl, hs⟩
    exact hentry.merge u hu hw
  · refine hentry.unwritten fun u hu hw => ?_
    obtain ⟨n, hn, _, hs⟩ := exists_write_iff.1 ⟨u, hu, hw, rfl, rfl⟩
    exact hnone n hn _ hs

end Definition

/-! ## Compiled nodes -/

namespace Compiler

variable {c : Compiler} {inner : Inner} {env : Surroundings} {id : String} {options : NodeOptions}

/-- **A compiled node writes declared fields only.** -/
theorem declares_of_nodeOf {kind : NodeKind} {skip : Bool} {made : GraphNode}
    (h : (c.nodeOf inner env id options skip kind).made = some made) {field : String}
    (hwrites : made.Writes field) :
    ∃ merge, NodeDecl.Declares env.definition.defaults.messagesField id options kind field merge := by
  cases compiledAs_of_nodeOf h with
  | transform spec houtput =>
    cases hwrites
    exact ⟨_, .transformOutput houtput⟩
  | router spec hfield =>
    cases hwrites
    rw [hfield]
    exact ⟨_, .route⟩
  | agent spec houtput hmessages =>
    rcases hwrites with rfl | hfield
    · rw [hmessages]
      exact ⟨_, .messages⟩
    · exact ⟨_, .agentOutput (houtput ▸ hfield)⟩
  | map spec =>
    cases hwrites
    exact ⟨_, .collect⟩
  | interrupt spec houtput hresumeKey =>
    rcases hwrites with rfl | rfl
    · rw [houtput]
      exact ⟨_, .message⟩
    · rw [hresumeKey]
      exact ⟨_, .resumeKey⟩
  | subgraph => exact ⟨_, .mappedBack hwrites⟩
  | passthrough spec => exact ⟨_, .passed hwrites⟩

/-- **A compiled node writes every field that it declares to accumulate**, in every outcome that it
comes to when it is entered afresh. What a subgraph writes is what the graph inside it holds. -/
theorem mem_fieldsOn_of_nodeOf {kind : NodeKind} {skip : Bool} {made : GraphNode}
    (h : (c.nodeOf inner env id options skip kind).made = some made)
    (hkind : ∀ spec, kind ≠ .subgraph spec) {field : String} {merge : MergeStrategy}
    (hdeclares : NodeDecl.Declares env.definition.defaults.messagesField id options kind field merge)
    (happend : merge = .append) : ∃ fields, made.fieldsOn? none = some fields ∧ field ∈ fields := by
  cases compiledAs_of_nodeOf h with
  | transform spec houtput =>
    cases hdeclares with
    | transformOutput hfield =>
      rw [hfield] at houtput
      exact ⟨_, rfl, List.mem_singleton.2 (Option.some.inj houtput)⟩
  | router =>
    cases hdeclares
    cases happend
  | agent spec houtput hmessages =>
    cases hdeclares with
    | agentOutput hfield =>
      refine ⟨_, rfl, List.mem_cons_of_mem _ (Option.mem_toList.2 ?_)⟩
      rw [houtput, hfield]
    | messages =>
      rw [← hmessages]
      exact ⟨_, rfl, List.mem_cons_self⟩
  | map =>
    cases hdeclares
    exact ⟨_, rfl, List.mem_singleton_self _⟩
  | interrupt spec houtput =>
    cases hdeclares with
    | message => exact ⟨_, rfl, List.mem_singleton.2 houtput.symm⟩
    | resumeKey => cases happend
  | subgraph => exact absurd rfl (hkind _)
  | passthrough spec =>
    cases hdeclares with
    | passed hfield => exact ⟨_, rfl, hfield⟩

end Compiler

/-- **Shapes are sound and complete for writes.** A shape is inferred if and only if no two
declarations give one field different strategies. What a node writes at run time, in whatever
surroundings of its definition it has been compiled, is then known to the shape: the node is among
the writers, and the strategy is the one that the node declares. Writers are those that declare the
field and no others, so reads add none, and change no strategy. -/
theorem shape_of_declared_writes (d : Definition) :
    ((∃ shape, StateShape.infer d = .ok shape) ↔
      ∀ n ∈ d.nodes, ∀ m ∈ d.nodes, ∀ field s t,
        d.Declares n field s → d.Declares m field t → s = t) ∧
    ∀ shape, StateShape.infer d = .ok shape →
      (∀ (c : Compiler) (inner : Compiler.Inner) (env : Compiler.Surroundings),
        env.definition = d → ∀ n ∈ d.nodes, ∀ (skip : Bool) (made : GraphNode),
        (c.nodeOf inner env n.id n.options skip n.kind).made = some made →
        ∀ (s : State) (scope : Scope) (resume : Option Value),
          (made.runner s scope resume).Obeys (fun _ => True) fun r =>
            ∀ outcome, r.result = .ok outcome → ∀ field ∈ outcome.update.fields,
              ∃ spec, shape.get? field = some spec ∧ n.id ∈ spec.writers ∧
                d.Declares n field spec.merge) ∧
      ∀ field spec, shape.get? field = some spec →
        (∀ id, id ∈ spec.writers ↔ ∃ n ∈ d.nodes, n.id = id ∧ ∃ s, d.Declares n field s) ∧
        (∀ n ∈ d.nodes, ∀ s, d.Declares n field s → spec.merge = s) ∧
        ((∀ n ∈ d.nodes, ∀ s, ¬d.Declares n field s) → spec.merge = .overwrite) := by
  refine ⟨StateShape.infer_ok_iff.trans Definition.agree_uses_iff, fun shape hshape =>
    ⟨?_, fun field spec hspec => Definition.entry_of_declared hshape hspec⟩⟩
  rintro c inner env rfl n hn skip made hmade s scope resume
  refine (made.runner_writes s scope resume).mono (fun _ hc => hc) ?_
  intro r hr outcome houtcome field hfield
  obtain ⟨merge, hdeclares⟩ := Compiler.declares_of_nodeOf hmade (hr outcome houtcome field hfield)
  obtain ⟨u, hu, hw, _, _⟩ := Definition.exists_write_iff.2 ⟨n, hn, rfl, hdeclares⟩
  obtain ⟨spec, hspec⟩ := Option.isSome_iff_exists.1
    ((StateShape.isSome_get?_iff hshape).2 ⟨u, hu, hw.2⟩)
  obtain ⟨hwriters, hmerges, _⟩ := Definition.entry_of_declared hshape hspec
  refine ⟨spec, hspec, (hwriters n.id).2 ⟨n, hn, rfl, merge, hdeclares⟩, ?_⟩
  rwa [hmerges n hn merge hdeclares]

/-- A single node that asks for a name. -/
def question : Definition where
  version := none
  name := "question"
  description := none
  entry := none
  defaults := .standard
  tools := []
  nodes := [⟨"ask", .interrupt ⟨some "Name?", none, [], "name"⟩, .unset⟩]
  edges := [⟨"ask", .one "END", none⟩]
  loopLimits := []
  checkpoint := none

/-- The shape of its state. -/
def questionShape : StateShape :=
  ⟨[("ask_message", ⟨.any, .overwrite, ["ask"], .output⟩),
    ("name", ⟨.any, .overwrite, ["ask"], .implicit⟩)]⟩

/-- The node that asks, as it is compiled. -/
def questionNode : GraphNode :=
  .leaf ⟨"ask", some "ask_message", ⟨.fail, none, none, [], []⟩⟩
    (.interrupt ⟨.template "Name?", [], "ask_message", "name", false⟩)

/-- The node that asks writes its message when it suspends and the answer when it is resumed, and
the shape knows both fields. -/
theorem question_writes_known_fields :
    StateShape.infer question = .ok questionShape ∧
      (bareCompiler.nodeOf (fun _ _ _ => .refused []) ⟨question, none, [], .empty⟩ "ask" .unset false
        (.interrupt ⟨some "Name?", none, [], "name"⟩)).made = some questionNode ∧
      ∀ resume, (questionNode.runner .blank ⟨"t", .standard⟩ resume).Obeys (fun _ => True) fun r =>
        ∀ outcome, r.result = .ok outcome → ∀ field ∈ outcome.update.fields,
          ∃ spec, questionShape.get? field = some spec ∧ "ask" ∈ spec.writers := by
  have hshape : StateShape.infer question = .ok questionShape := by with_unfolding_all rfl
  have hmade : (bareCompiler.nodeOf (fun _ _ _ => .refused []) ⟨question, none, [], .empty⟩ "ask"
      .unset false (.interrupt ⟨some "Name?", none, [], "name"⟩)).made = some questionNode := rfl
  refine ⟨hshape, hmade, fun resume => ?_⟩
  have hwrites := ((shape_of_declared_writes question).2 questionShape hshape).1 bareCompiler _ _ rfl
    _ List.mem_cons_self false questionNode hmade .blank ⟨"t", .standard⟩ resume
  refine hwrites.mono (fun _ hc => hc) fun r hr outcome houtcome field hfield => ?_
  obtain ⟨spec, hspec, hwriter, _⟩ := hr outcome houtcome field hfield
  exact ⟨spec, hspec, hwriter⟩

end WorkflowGraph
