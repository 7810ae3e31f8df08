import WorkflowGraph.Proofs.Compiler.Inline
import WorkflowGraph.Proofs.Compiler.Wiring

/-!
# Where errors come from

Only a subgraph reports that a definition encloses itself, and only a subgraph wraps the errors of
another definition. All other errors are a definition's own (`CompileError.IsOwn`): those of reading
and validating it, of its shape, its transitions and tools, and of binding its tasks. So what a
definition reports besides its own errors is exactly what its subgraphs report
(`Compiler.mem_errors_link_iff`). Only the binding of tools reports that one is not registered; the
errors of all other stages are plain (`CompileError.IsPlain`).
-/

set_option autoImplicit false

namespace WorkflowGraph

/-- Whether an error tells of more than that a definition encloses itself. -/
def DefinitionError.IsOwn (e : DefinitionError) : Prop := ∀ chain, e ≠ .circularSubgraph chain

/-- Whether an error is one of a definition itself, and not of those around it or inside it. -/
def CompileError.IsOwn : CompileError → Prop
  | .definition e => e.IsOwn
  | .subgraph _ _ => False
  | _ => True

/-- Whether an error tells neither that a definition encloses itself nor that a tool is not
registered. -/
def DefinitionError.IsPlain (e : DefinitionError) : Prop :=
  e.IsOwn ∧ ∀ tool binding, e ≠ .unresolvedToolBinding tool binding

/-- Whether an error is one of a definition itself and tells of no tool that is not registered. -/
def CompileError.IsPlain : CompileError → Prop
  | .definition e => e.IsPlain
  | .subgraph _ _ => False
  | _ => True

theorem CompileError.IsPlain.isOwn {e : CompileError} (h : e.IsPlain) : e.IsOwn := by
  cases e with
  | definition e => exact h.1
  | subgraph id errors => exact h
  | _ => trivial

/-! ## Reading and validating -/

namespace Definition

open DefinitionError

variable {d : Definition} {e : DefinitionError}

theorem isPlain_of_mem_faultIf {c : Bool} {node : String} {fault : NodeFault}
    (h : e ∈ faultIf c node fault) : e.IsPlain := by
  unfold faultIf at h
  split at h <;> simp_all [IsPlain, IsOwn]

theorem isPlain_of_mem_toolFaults {node tool : String} (h : e ∈ d.toolFaults node tool) :
    e.IsPlain := by
  unfold toolFaults at h
  split at h <;> simp_all [IsPlain, IsOwn]

theorem isPlain_of_mem_routeFaults {node route target : String}
    (h : e ∈ d.routeFaults node route target) : e.IsPlain := by
  unfold routeFaults at h
  split at h <;> simp_all [IsPlain, IsOwn]

theorem isPlain_of_mem_nodeFaults (kind : NodeKind) {id : String} {options : NodeOptions}
    {inMap : Bool} (h : e ∈ d.nodeFaults id options inMap kind) : e.IsPlain := by
  induction kind generalizing id options inMap with
  | transform spec =>
    rcases List.mem_append.1 h with h | h
    · split at h
      · simp_all [IsPlain, IsOwn]
      · simp_all [IsPlain, IsOwn]
      · exact isPlain_of_mem_toolFaults h
      · cases h
    · exact isPlain_of_mem_faultIf h
  | router spec =>
    simp only [nodeFaults, routerFaults, List.mem_append, List.mem_flatMap] at h
    rcases h with (((h | h) | ⟨route, _, h⟩) | ⟨target, _, h⟩) | h
    · split at h <;> simp_all [IsPlain, IsOwn]
    · exact isPlain_of_mem_faultIf h
    · exact isPlain_of_mem_routeFaults h
    · exact isPlain_of_mem_routeFaults h
    · exact isPlain_of_mem_faultIf h
  | agent spec =>
    simp only [nodeFaults, agentFaults, List.mem_append, List.mem_flatMap] at h
    rcases h with (h | ⟨tool, _, h⟩) | h
    · exact isPlain_of_mem_faultIf h
    · exact isPlain_of_mem_toolFaults h
    · exact isPlain_of_mem_faultIf h
  | map spec innerOptions kind ih =>
    rcases List.mem_append.1 h with h | h
    · simp only [mapFaults, List.mem_append] at h
      rcases h with ((h | h) | h) | h <;> exact isPlain_of_mem_faultIf h
    · exact ih h
  | interrupt spec =>
    rcases List.mem_append.1 h with h | h <;> exact isPlain_of_mem_faultIf h
  | subgraph spec =>
    unfold nodeFaults subgraphFaults at h
    split at h <;> simp_all [IsPlain, IsOwn]
  | passthrough spec => cases h

theorem isPlain_of_mem_edgeFaults {index : Nat} {edge : EdgeDecl}
    (h : e ∈ d.edgeFaults index edge) : e.IsPlain := by
  simp only [edgeFaults, List.mem_append, List.mem_flatMap] at h
  rcases h with ((h | h) | ⟨target, _, h⟩) | h
  · split at h
    · simp_all [IsPlain, IsOwn]
    · split at h <;> simp_all [IsPlain, IsOwn]
  · split at h <;> simp_all [IsPlain, IsOwn]
  · unfold targetFaults at h
    split at h
    · simp_all [IsPlain, IsOwn]
    · split at h <;> simp_all [IsPlain, IsOwn]
  · split at h <;> simp_all [IsPlain, IsOwn]

theorem isPlain_of_mem_faults (h : e ∈ d.faults) : e.IsPlain := by
  simp only [faults, entryFaults, List.mem_append, List.mem_flatMap] at h
  rcases h with ((((h | h) | h) | ⟨n, _, h⟩) | ⟨edge, _, h⟩) | ⟨limit, _, h⟩
  · split at h <;> simp_all [IsPlain, IsOwn]
  · split at h
    · split at h <;> simp_all [IsPlain, IsOwn]
    · cases h
  · split at h
    · split at h <;> simp_all [IsPlain, IsOwn]
    · cases h
  · exact isPlain_of_mem_nodeFaults n.kind h
  · exact isPlain_of_mem_edgeFaults h
  · unfold limitFaults at h
    split at h
    · simp_all [IsPlain, IsOwn]
    · split at h <;> simp_all [IsPlain, IsOwn]

theorem isPlain_of_mem_readSection {α : Type} {root : List (Yaml.Node × Yaml.Node)} {key : String}
    {read : Yaml.Node → Option α} {default : α} (h : e ∈ (readSection root key read default).1) :
    e.IsPlain := by
  unfold readSection at h
  split at h
  · cases h
  · split at h
    · cases h
    · split at h <;> simp_all [IsPlain, IsOwn]

/-- Why the body of a node is refused. By induction on the body, through the nodes inside maps. -/
theorem isPlain_of_typeFault? {id : String} {body : Yaml.Node}
    (h : NodeDecl.typeFault? id body = some e) : e.IsPlain := by
  fun_induction NodeDecl.typeFault? id body with
  | case1 | case2 | case6 | case8 =>
    cases h
    simp [IsPlain, IsOwn]
  | case3 | case5 | case7 => cases h
  | case4 _ _ _ _ _ _ hrefused _ _ ih =>
    cases h
    exact ih hrefused

theorem isPlain_of_mem_readNodes {entries : List (Yaml.Node × Yaml.Node)}
    (h : e ∈ (readNodes entries).1) : e.IsPlain := by
  induction entries with
  | nil => cases h
  | cons p rest ih =>
    unfold readNodes at h
    dsimp only at h
    split at h
    · rcases List.mem_cons.1 h with rfl | h
      · simp [IsPlain, IsOwn]
      · exact ih h
    · split at h
      · rcases List.mem_cons.1 h with rfl | h
        · simp [IsPlain, IsOwn]
        · exact ih h
      · split at h
        · exact ih h
        · next fault hfault =>
          rcases List.mem_cons.1 h with rfl | h
          · unfold NodeDecl.ofBody at hfault
            split at hfault
            · next hrefused =>
              cases hfault
              exact isPlain_of_typeFault? hrefused
            · split at hfault <;> cases hfault
              simp [IsPlain, IsOwn]
          · exact ih h

theorem isPlain_of_mem_readEdges {index : Nat} {items : List Yaml.Node}
    (h : e ∈ (readEdges index items).1) : e.IsPlain := by
  induction items generalizing index with
  | nil => cases h
  | cons n rest ih =>
    unfold readEdges at h
    dsimp only at h
    split at h
    · exact ih h
    · rcases List.mem_cons.1 h with rfl | h
      · simp [IsPlain, IsOwn]
      · exact ih h

theorem isPlain_of_ofNode {n : Yaml.Node} {errors : List DefinitionError}
    (h : ofNode n = .error errors) : ∀ e ∈ errors, e.IsPlain := by
  unfold ofNode at h
  split at h
  · dsimp only at h
    split at h
    · cases h
    · cases h
      intro e he
      simp only [List.mem_append] at he
      rcases he with ((((((((he | he) | he) | he) | he) | he) | he) | he) | he) | he
      · unfold readName at he
        split at he
        · split at he <;> simp_all [IsPlain, IsOwn]
        · simp_all [IsPlain, IsOwn]
        · simp_all [IsPlain, IsOwn]
      · unfold readVersion at he
        split at he
        · cases he
        · split at he
          · simp_all [IsPlain, IsOwn]
          · split at he <;> simp_all [IsPlain, IsOwn]
      · exact isPlain_of_mem_readSection he
      · exact isPlain_of_mem_readSection he
      · exact isPlain_of_mem_readSection he
      · exact isPlain_of_mem_readSection he
      · exact isPlain_of_mem_readSection he
      · exact isPlain_of_mem_readSection he
      · unfold readNodeSection at he
        split at he
        · exact isPlain_of_mem_readNodes he
        · simp_all [IsPlain, IsOwn]
        · simp_all [IsPlain, IsOwn]
      · unfold readEdgeSection at he
        split at he
        · exact isPlain_of_mem_readEdges he
        · simp_all [IsPlain, IsOwn]
        · simp_all [IsPlain, IsOwn]
  · cases h
    simp [IsPlain, IsOwn]

theorem isPlain_of_parse {text : String} {errors : List DefinitionError}
    (h : parse text = .error errors) : ∀ e ∈ errors, e.IsPlain := by
  unfold parse at h
  split at h
  · exact isPlain_of_ofNode h
  · cases h
    simp [IsPlain, IsOwn]

end Definition

/-! ## The stages of compilation -/

open CompileError

theorem StateShape.isPlain_of_infer {d : Definition} {errors : List DefinitionError}
    (h : StateShape.infer d = .error errors) : ∀ e ∈ errors, e.IsPlain := by
  have hadd (draft : Draft) (u : FieldUse) (hdraft : ∀ e ∈ draft.errors, e.IsPlain) :
      ∀ e ∈ (draft.add u).errors, e.IsPlain := by
    unfold Draft.add
    split
    · exact hdraft
    · split
      · exact hdraft
      · split
        · exact List.forall_mem_append.2
            ⟨hdraft, by simp [DefinitionError.IsPlain, DefinitionError.IsOwn]⟩
        · exact hdraft
  have hfold (uses : List FieldUse) (draft : Draft) (hdraft : ∀ e ∈ draft.errors, e.IsPlain) :
      ∀ e ∈ (uses.foldl Draft.add draft).errors, e.IsPlain := by
    induction uses generalizing draft with
    | nil => exact hdraft
    | cons u rest ih => exact ih _ (hadd draft u hdraft)
  unfold StateShape.infer StateShape.ofUses at h
  dsimp only at h
  split at h
  · cases h
  · cases h
    exact hfold _ _ fun e he => absurd he List.not_mem_nil

namespace TransitionTable

variable {d : Definition} {e : CompileError}

theorem isPlain_of_mem_gather {node : String} {edges : List (Nat × EdgeDecl)} {out : Outgoing}
    (hout : ∀ e ∈ out.errors, e.IsPlain) :
    ∀ e ∈ (Outgoing.gather node edges out).errors, e.IsPlain := by
  induction edges generalizing out with
  | nil => exact hout
  | cons p rest ih =>
    unfold Outgoing.gather
    split
    · split
      · exact hout
      · exact ih hout
    · split
      · exact ih hout
      · exact ih (List.forall_mem_append.2 ⟨hout, by simp [CompileError.IsPlain]⟩)

theorem isPlain_of_mem_transitionOf {n : NodeDecl} (h : e ∈ (d.transitionOf n).2) : e.IsPlain := by
  have hgather : ∀ e ∈ (Outgoing.gather n.id (d.edgesOf n.id) .none).errors, e.IsPlain :=
    isPlain_of_mem_gather fun e he => absurd he List.not_mem_nil
  unfold Definition.transitionOf at h
  split at h
  · cases h
  · unfold Transition.ofEdges at h
    dsimp only at h
    split at h
    · rcases List.mem_append.1 h with h | h
      · exact hgather e h
      · simp_all [CompileError.IsPlain, DefinitionError.IsPlain, DefinitionError.IsOwn]
    · split at h
      · exact hgather e h
      · split at h
        · rcases List.mem_append.1 h with h | h
          · exact hgather e h
          · simp_all [CompileError.IsPlain, DefinitionError.IsPlain, DefinitionError.IsOwn]
        · exact hgather e h
      · exact hgather e h

theorem isPlain_of_ofDefinition {errors : List CompileError} (h : ofDefinition d = .error errors) :
    ∀ e ∈ errors, e.IsPlain := by
  unfold ofDefinition at h
  split at h
  · cases h
    simp [CompileError.IsPlain, DefinitionError.IsPlain, DefinitionError.IsOwn]
  · dsimp only at h
    split at h
    · cases h
    · cases h
      intro e he
      rcases mem_errors_draft.1 he with ⟨n, _, he⟩ | ⟨id, _, rfl⟩ | he
      · exact isPlain_of_mem_transitionOf he
      · simp [CompileError.IsPlain, DefinitionError.IsPlain, DefinitionError.IsOwn]
      · obtain ⟨_, rfl⟩ := (Definition.assignLimits_eq_error_iff (nodup_cyclesOf d)).1 he
        trivial

end TransitionTable

namespace Compiler

variable {c : Compiler} {d : Definition} {e : CompileError} {env : Surroundings} {inner : Inner}

/-- A tool is reported exactly if its binding is not registered. -/
theorem mem_errors_bindTools_iff {tools : List (String × ToolDecl)} :
    e ∈ (c.bindTools tools).2 ↔ ∃ p ∈ tools, c.tools.get? (p.2.binding.getD p.1) = none ∧
      e = .definition (.unresolvedToolBinding p.1 (p.2.binding.getD p.1)) := by
  induction tools with
  | nil => simp [bindTools]
  | cons p rest ih =>
    unfold bindTools
    dsimp only
    split
    · next hfound => simp [ih, hfound]
    · next hmissing => simp [ih, hmissing]

theorem isOwn_of_mem_bindTools {tools : List (String × ToolDecl)}
    (h : e ∈ (c.bindTools tools).2) : e.IsOwn := by
  obtain ⟨p, -, -, rfl⟩ := mem_errors_bindTools_iff.1 h
  simp [CompileError.IsOwn, DefinitionError.IsOwn]

theorem isPlain_of_executorFor {node task : String} {backend : Option Value}
    {errors : List CompileError} (h : c.executorFor node task backend = .error errors) :
    ∀ e ∈ errors, e.IsPlain := by
  unfold executorFor at h
  split at h
  · cases h
    simp [CompileError.IsPlain, DefinitionError.IsPlain, DefinitionError.IsOwn]
  · split at h
    · cases h
    · cases h
      simp [CompileError.IsPlain, DefinitionError.IsPlain, DefinitionError.IsOwn]

theorem isPlain_of_bindTask {node : NodeDecl} {task : String} {errors : List CompileError}
    (h : c.bindTask d node task = .error errors) : ∀ e ∈ errors, e.IsPlain := by
  unfold bindTask at h
  rcases error_of_bind h with hprimary | ⟨primary, _, h⟩
  · exact isPlain_of_executorFor hprimary
  · split at h
    · rcases error_of_bind h with hfallback | ⟨fallback, _, h⟩
      · exact isPlain_of_executorFor hfallback
      · cases h
    · cases h

theorem isPlain_of_mem_transformOf {node : NodeDecl} {spec : TransformSpec}
    (h : e ∈ (c.transformOf env node spec).errors) : e.IsPlain := by
  unfold transformOf at h
  dsimp only at h
  split at h
  · split at h
    · cases h
    · next errors hbind => exact isPlain_of_bindTask hbind e h
  · split at h <;> cases h
  · cases h

theorem isPlain_of_mem_bound {node : NodeDecl} {task : String}
    (h : e ∈ (Staged.ofExcept (c.bindTask d node task)).errors) : e.IsPlain := by
  cases hbind : c.bindTask d node task with
  | ok binding =>
    rw [hbind] at h
    cases h
  | error errors =>
    rw [hbind] at h
    exact isPlain_of_bindTask hbind e h

theorem isPlain_of_mem_routerOf {node : NodeDecl} {spec : RouterSpec}
    (h : e ∈ (c.routerOf env node spec).errors) : e.IsPlain := by
  unfold routerOf at h
  dsimp only at h
  split at h
  · exact isPlain_of_mem_bound h
  · cases h
  · cases h

theorem isPlain_of_mem_interruptOf {node : NodeDecl} {spec : InterruptSpec} {skip : Bool}
    (h : e ∈ (c.interruptOf env node spec skip).errors) : e.IsPlain := by
  unfold interruptOf at h
  dsimp only at h
  split at h
  · cases h
  · split at h
    · cases h
    · next errors hbind => exact isPlain_of_bindTask hbind e h
  · cases h

/-- **Besides plain errors a node reports what the subgraph in it reports.** By induction on its
kind, through the nodes inside maps. -/
theorem mem_errors_nodeOf_iff (hplain : ¬ e.IsPlain) (kind : NodeKind) {id : String}
    {options : NodeOptions} {skip : Bool} :
    e ∈ (c.nodeOf inner env id options skip kind).errors ↔
      ∃ node spec, NodeDecl.subgraph? id options kind = some (node, spec) ∧
        e ∈ (inner env node spec).errors := by
  have hleaf {kind : NodeKind} {id : String} {options : NodeOptions} {errors : List CompileError}
      (hnone : NodeDecl.subgraph? id options kind = none) (h : ∀ e ∈ errors, e.IsPlain) :
      e ∈ errors ↔ ∃ node spec, NodeDecl.subgraph? id options kind = some (node, spec) ∧
        e ∈ (inner env node spec).errors := by
    refine ⟨fun he => absurd (h e he) hplain, ?_⟩
    rintro ⟨node, spec, hsome, _⟩
    rw [hnone] at hsome
    cases hsome
  induction kind generalizing id options skip with
  | map spec innerOptions kind ih => exact ih
  | subgraph spec =>
    refine ⟨fun he => ⟨_, spec, rfl, he⟩, ?_⟩
    rintro ⟨node, spec', hsome, he⟩
    cases hsome
    exact he
  | passthrough spec => exact hleaf rfl fun e he => absurd he List.not_mem_nil
  | agent spec => exact hleaf rfl fun e he => isPlain_of_mem_bound he
  | router spec => exact hleaf rfl fun e he => isPlain_of_mem_routerOf he
  | transform spec => exact hleaf rfl fun e he => isPlain_of_mem_transformOf he
  | interrupt spec => exact hleaf rfl fun e he => isPlain_of_mem_interruptOf he

theorem mem_errors_nodesOf_iff {nodes : List NodeDecl} :
    e ∈ (c.nodesOf inner env nodes).2 ↔
      ∃ n ∈ nodes, e ∈ (c.nodeOf inner env n.id n.options (isSkipped env n) n.kind).errors := by
  induction nodes with
  | nil => simp [nodesOf]
  | cons n rest ih =>
    unfold nodesOf
    dsimp only
    rw [List.mem_append, ih, List.exists_mem_cons_iff]

/-- **Besides plain errors a valid definition reports the tools that are not registered, and what
its subgraphs report.** -/
theorem mem_errors_link_or_iff (hplain : ¬ e.IsPlain) {store : Option Store} {stack : SourceStack} :
    e ∈ (Staged.ofExcept (c.link inner store stack d)).errors ↔
      e ∈ (c.bindTools d.tools).2 ∨ ∃ n ∈ d.nodes, ∃ node spec,
        NodeDecl.subgraph? n.id n.options n.kind = some (node, spec) ∧
          e ∈ (inner (c.surroundings stack d) node spec).errors := by
  have hnodes : e ∈ (c.nodesOf inner (c.surroundings stack d) d.nodes).2 ↔
      ∃ n ∈ d.nodes, ∃ node spec,
        NodeDecl.subgraph? n.id n.options n.kind = some (node, spec) ∧
          e ∈ (inner (c.surroundings stack d) node spec).errors := by
    rw [mem_errors_nodesOf_iff]
    exact exists_congr fun n => and_congr_right fun _ => mem_errors_nodeOf_iff hplain n.kind
  rw [← hnodes]
  unfold link linkNodes
  dsimp only
  split
  · next hnone _ _ =>
    obtain ⟨hnone, hinner⟩ := List.append_eq_nil_iff.1 hnone
    rw [hinner, (List.append_eq_nil_iff.1 hnone).2]
    simp [Staged.ofExcept, Staged.ok]
  · simp only [Staged.ofExcept, Staged.refused, List.mem_append]
    constructor
    · rintro ((((he | he) | he) | he) | he)
      · refine absurd ?_ hplain
        cases hshape : StateShape.infer d with
        | ok shape =>
          rw [hshape] at he
          cases he
        | error errors =>
          rw [hshape] at he
          obtain ⟨e', he', rfl⟩ := List.mem_map.1 he
          exact StateShape.isPlain_of_infer hshape e' he'
      · refine absurd ?_ hplain
        cases htable : TransitionTable.ofDefinition d with
        | ok table =>
          rw [htable] at he
          cases he
        | error errors =>
          rw [htable] at he
          exact TransitionTable.isPlain_of_ofDefinition htable e he
      · refine absurd ?_ hplain
        split at he
        · rw [List.mem_singleton.1 he]
          exact trivial
        · cases he
      · exact .inl he
      · exact .inr he
    · rintro (he | he)
      · exact .inl (.inr he)
      · exact .inr he

/-- **Besides its own errors a valid definition reports what its subgraphs report.** -/
theorem mem_errors_link_iff (hown : ¬ e.IsOwn) {store : Option Store} {stack : SourceStack} :
    e ∈ (Staged.ofExcept (c.link inner store stack d)).errors ↔
      ∃ n ∈ d.nodes, ∃ node spec,
        NodeDecl.subgraph? n.id n.options n.kind = some (node, spec) ∧
          e ∈ (inner (c.surroundings stack d) node spec).errors :=
  (mem_errors_link_or_iff (mt CompileError.IsPlain.isOwn hown)).trans
    (or_iff_right (mt isOwn_of_mem_bindTools hown))

end Compiler

end WorkflowGraph
