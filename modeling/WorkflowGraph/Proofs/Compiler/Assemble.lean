import WorkflowGraph.Proofs.Compiler.Stages

/-!
# What an assembled graph is made of

Assembling a definition gives a graph only where no stage has found an error, and at least one
error otherwise (`Compiler.assemble_errors`). What the graph is then made of is said once
(`Compiler.Linked`): the shape that is inferred, the table that is built, and the nodes that are
compiled, all of the same definition.

All of a definition is compiled on one stack, on which every subgraph puts its key while what is
inside it is compiled. A subgraph leaves the stack as it has found it, however it ends, and so does
the whole (`Compiler.run_assembleOn`): what is compiled on the stack is the same as with the stack
as an argument, and no node sees what has been entered for the nodes before it.
-/

set_option autoImplicit false

namespace WorkflowGraph

theorem StateShape.infer_errors {d : Definition} {errors : List DefinitionError}
    (h : StateShape.infer d = .error errors) : errors ≠ [] := by
  unfold StateShape.infer StateShape.ofUses at h
  dsimp only at h
  split at h
  · cases h
  · next hempty =>
    cases h
    simpa using hempty

namespace Compiler

open Staged

/-- What a graph has been linked from. -/
structure Linked (c : Compiler) (inner : Inner) (store : Option Store) (stack : SourceStack)
    (d : Definition) (g : Graph) : Prop where
  shape : StateShape.infer d = .ok g.frame.shape
  table : TransitionTable.ofDefinition d = .ok g.frame.table
  store : g.frame.store = store
  tools : (c.bindTools d.tools).2 = []
  nodes : g.nodes =
    (c.nodesOf inner ⟨d, some g.frame.table, (c.bindTools d.tools).1, stack⟩ d.nodes).1
  errors : (c.nodesOf inner ⟨d, some g.frame.table, (c.bindTools d.tools).1, stack⟩ d.nodes).2 = []

variable {c : Compiler} {inner : Inner} {store : Option Store} {stack : SourceStack}
  {d : Definition} {g : Graph}

/-- A graph is linked only from stages without errors. -/
theorem linked_of_link (h : c.link inner store stack d = .ok g) :
    Linked c inner store stack d g := by
  cases hshape : StateShape.infer d with
  | error es =>
    simp only [link, linkNodes, surroundings, hshape, Except.mapError, Staged.ofExcept, Staged.refused] at h
    split at h
    · next hnone _ => cases hnone
    · cases h
  | ok shape =>
    cases htable : TransitionTable.ofDefinition d with
    | error es =>
      simp only [link, linkNodes, surroundings, hshape, htable, Except.mapError, Staged.ofExcept, Staged.refused,
        Staged.ok] at h
      split at h
      · next hnone => cases hnone
      · cases h
    | ok table =>
      simp only [link, linkNodes, surroundings, hshape, htable, Except.mapError, Staged.ofExcept, Staged.ok] at h
      split at h
      · next herrors hs ht =>
        cases hs
        cases ht
        cases h
        simp only [List.append_eq_nil_iff] at herrors
        obtain ⟨⟨_, htools⟩, hnodes⟩ := herrors
        exact ⟨hshape, htable, rfl, htools, rfl, hnodes⟩
      · cases h

/-- A definition that is not linked has errors. -/
theorem link_errors {errors : List CompileError} (h : c.link inner store stack d = .error errors) :
    errors ≠ [] := by
  rintro rfl
  cases hshape : StateShape.infer d with
  | error es =>
    simp only [link, linkNodes, surroundings, hshape, Except.mapError, Staged.ofExcept, Staged.refused] at h
    split at h
    · cases h
    · simp only [Except.error.injEq, List.append_eq_nil_iff, List.map_eq_nil_iff] at h
      exact StateShape.infer_errors hshape h.1.1.1.1
  | ok shape =>
    cases htable : TransitionTable.ofDefinition d with
    | error es =>
      simp only [link, linkNodes, surroundings, hshape, htable, Except.mapError, Staged.ofExcept, Staged.refused,
        Staged.ok] at h
      split at h
      · cases h
      · simp only [Except.error.injEq, List.append_eq_nil_iff] at h
        exact TransitionTable.errors_ne_nil htable h.1.1.1.2
    | ok table =>
      simp only [link, linkNodes, surroundings, hshape, htable, Except.mapError, Staged.ofExcept, Staged.ok] at h
      split at h
      · cases h
      · next hnot =>
        simp only [Except.error.injEq] at h
        exact hnot shape table h rfl rfl

/-! ## Subgraphs -/

/-- How the graphs inside the subgraphs of a definition are made, which are at most `depth`
deep. -/
def innerAt (c : Compiler) (store : Option Store) (depth : Nat) : Inner := fun env node spec =>
  match c.subgraphSource env node spec with
  | .error errors => .refused errors
  | .ok (key, parsed) =>
    match env.stack.enter key with
    | .error e => .refused [.definition e]
    | .ok stack =>
      let made := match parsed with
        | .ok child => c.assemble store depth stack child
        | .error es => .error (es.map .definition)
      Staged.ofExcept (made.mapError fun es => [.subgraph node.id es])

theorem assemble_succ (c : Compiler) (store : Option Store) (depth : Nat) (stack : SourceStack)
    {d : Definition} (hd : d.faults = []) :
    c.assemble store (depth + 1) stack d = c.link (c.innerAt store depth) store stack d := by
  unfold assemble
  rw [hd]
  rfl

theorem subgraphSource_errors {env : Surroundings} {node : NodeDecl} {spec : SubgraphSpec}
    (hfaults : Definition.subgraphFaults node.id spec = []) {errors : List CompileError}
    (h : c.subgraphSource env node spec = .error errors) : errors ≠ [] := by
  unfold subgraphSource at h
  cases hgraph : spec.graph with
  | some reference =>
    rw [hgraph] at h
    dsimp only at h
    split at h
    · cases h
    · cases h
      simp
  | none =>
    cases hinline : spec.definition with
    | some inline =>
      rw [hgraph, hinline] at h
      cases h
    | none =>
      unfold Definition.subgraphFaults at hfaults
      rw [hgraph, hinline] at hfaults
      cases hfaults

theorem innerAt_complete (c : Compiler) (store : Option Store) (depth : Nat) :
    InnerComplete (c.innerAt store depth) := by
  intro env node spec hfaults
  unfold innerAt
  cases hsource : c.subgraphSource env node spec with
  | error errors => exact complete_refused (subgraphSource_errors hfaults hsource)
  | ok source =>
    obtain ⟨key, parsed⟩ := source
    dsimp only
    split
    · exact complete_refused (by simp)
    · apply complete_ofExcept
      intro errors h
      unfold Except.mapError at h
      split at h
      · cases h
        simp
      · cases h

/-- An assembled graph has been linked from a valid definition. -/
theorem linked_of_assemble {depth : Nat} (h : c.assemble store depth stack d = .ok g) :
    d.faults = [] ∧
      ∃ below, depth = below + 1 ∧ Linked c (c.innerAt store below) store stack d g := by
  cases depth with
  | zero => cases h
  | succ below =>
    cases hd : d.faults with
    | cons first rest =>
      unfold assemble at h
      rw [hd] at h
      cases h
    | nil =>
      rw [assemble_succ c store below stack hd] at h
      exact ⟨rfl, below, rfl, linked_of_link h⟩

theorem assemble_errors {depth : Nat} {errors : List CompileError}
    (h : c.assemble store depth stack d = .error errors) : errors ≠ [] := by
  cases depth with
  | zero =>
    cases h
    simp
  | succ below =>
    cases hd : d.faults with
    | cons first rest =>
      unfold assemble at h
      rw [hd] at h
      cases h
      simp
    | nil =>
      rw [assemble_succ c store below stack hd] at h
      exact link_errors h

theorem nodeIds_of_linked {below : Nat} (hd : d.faults = [])
    (h : Linked c (c.innerAt store below) store stack d g) :
    g.nodes.map Prod.fst = d.nodeIds := by
  rw [h.nodes]
  apply nodesOf_ids (innerAt_complete c store below)
  · exact fun name hname => isSome_get?_bindTools h.tools hname
  · exact (Definition.faults_eq_nil_iff.1 hd).2.1
  · exact h.errors

end Compiler

/-- A compiler that has nothing to bind nodes to. -/
def bareCompiler : Compiler where
  executors _ := .error "there is no executor"
  tools := .empty
  loader := .texts []
  store := none
  config := none

/-- What is entered and left again is the stack as it was. -/
theorem SourceStack.exit_of_enter {stack entered : SourceStack} {key : String}
    (h : stack.enter key = .ok entered) : entered.exit = stack := by
  unfold SourceStack.enter at h
  split at h
  · cases h
  · cases h
    unfold SourceStack.exit
    rw [List.dropLast_concat]

theorem SourceStack.keys_of_enter {stack entered : SourceStack} {key : String}
    (h : stack.enter key = .ok entered) : key ∉ stack.keys ∧ entered.keys = stack.keys ++ [key] := by
  unfold SourceStack.enter at h
  split at h
  · cases h
  · next hnew =>
    cases h
    rw [List.contains_eq_mem, decide_eq_true_eq] at hnew
    exact ⟨hnew, rfl⟩

/-- A key is refused exactly where it is on the stack already, with the chain that leads to it. -/
theorem SourceStack.enter_eq_error_iff {stack : SourceStack} {key : String} {e : DefinitionError} :
    stack.enter key = .error e ↔
      key ∈ stack.keys ∧ e = .circularSubgraph (stack.keys ++ [key]) := by
  unfold SourceStack.enter
  rw [List.contains_eq_mem]
  by_cases hmem : key ∈ stack.keys
  · simp only [hmem, decide_true, if_true, Except.error.injEq, true_and]
    exact eq_comm
  · simp [hmem]

namespace Compiler

variable {c : Compiler} {env : Surroundings}

/-- A node depends on the graphs inside subgraphs only by the one in it. By induction on its kind,
through the nodes inside maps. -/
theorem nodeOf_congr {inner other : Inner} (kind : NodeKind) {id : String} {options : NodeOptions}
    {skip : Bool}
    (h : ∀ node spec, NodeDecl.subgraph? id options kind = some (node, spec) →
      inner env node spec = other env node spec) :
    c.nodeOf inner env id options skip kind = c.nodeOf other env id options skip kind := by
  induction kind generalizing id options skip with
  | map spec innerOptions kind ih =>
    unfold nodeOf
    rw [ih h]
  | subgraph spec =>
    unfold nodeOf
    dsimp only
    rw [h _ _ rfl]
  | transform spec => rfl
  | router spec => rfl
  | agent spec => rfl
  | interrupt spec => rfl
  | passthrough spec => rfl

theorem nodesOf_congr {inner other : Inner} {nodes : List NodeDecl}
    (h : ∀ n ∈ nodes, ∀ node spec, NodeDecl.subgraph? n.id n.options n.kind = some (node, spec) →
      inner env node spec = other env node spec) :
    c.nodesOf inner env nodes = c.nodesOf other env nodes := by
  induction nodes with
  | nil => rfl
  | cons n rest ih =>
    obtain ⟨hn, hrest⟩ := List.forall_mem_cons.1 h
    unfold nodesOf
    rw [nodeOf_congr n.kind hn, ih hrest]

/-- What is done next on a stack goes on from what has been made, and from the stack as it is
then. -/
theorem run_bind_of_run {σ α β : Type} {m : StateM σ α} {next : α → StateM σ β} {s s' : σ} {a : α}
    (h : m.run s = (a, s')) : (m >>= next).run s = (next a).run s' := by
  rw [StateT.run_bind, h]
  rfl

/-- A node is compiled on the stack as with the stack as an argument where the graph in it is. -/
theorem run_nodeOn {on : InnerOn} {inner : Inner}
    (h : ∀ node spec, (on env node spec).run env.stack = (inner env node spec, env.stack))
    (node : NodeDecl) :
    (c.nodeOn on env node).run env.stack =
      (c.nodeOf inner env node.id node.options (isSkipped env node) node.kind, env.stack) := by
  have hnode (other : Inner) (hother : ∀ nested spec,
      NodeDecl.subgraph? node.id node.options node.kind = some (nested, spec) →
        inner env nested spec = other env nested spec) :
      c.nodeOf inner env node.id node.options (isSkipped env node) node.kind =
        c.nodeOf other env node.id node.options (isSkipped env node) node.kind :=
    nodeOf_congr node.kind hother
  unfold nodeOn
  cases hsub : NodeDecl.subgraph? node.id node.options node.kind with
  | none =>
    rw [hnode (fun _ _ _ => .refused []) fun nested spec hnested => by
      rw [hsub] at hnested
      cases hnested]
    rfl
  | some found =>
    obtain ⟨nested, spec⟩ := found
    rw [hnode (fun _ _ _ => inner env nested spec) fun nested' spec' hnested => by
      rw [hsub] at hnested
      cases hnested
      rfl]
    exact run_bind_of_run (h nested spec)

theorem run_nodesOn {on : InnerOn} {inner : Inner}
    (h : ∀ node spec, (on env node spec).run env.stack = (inner env node spec, env.stack))
    (nodes : List NodeDecl) :
    (c.nodesOn on env nodes).run env.stack = (c.nodesOf inner env nodes, env.stack) := by
  induction nodes with
  | nil => rfl
  | cons node rest ih =>
    unfold nodesOn
    rw [run_bind_of_run (run_nodeOn h node), run_bind_of_run ih]
    rfl

/-- A subgraph leaves the stack as it has found it, if what is inside it does: whether its source is
not loaded, its key is on the stack already, its definition is not read, or does not compile. -/
theorem run_subgraphOn {store : Option Store} {depth : Nat}
    {compile : Definition → StateM SourceStack (Except (List CompileError) Graph)}
    (h : ∀ stack d, (compile d).run stack = (c.assemble store depth stack d, stack))
    (env : Surroundings) (node : NodeDecl) (spec : SubgraphSpec) :
    (c.subgraphOn compile env node spec).run env.stack =
      (c.innerAt store depth env node spec, env.stack) := by
  unfold subgraphOn innerAt
  have hget : (get : StateM SourceStack SourceStack).run env.stack = (env.stack, env.stack) := rfl
  rw [run_bind_of_run hget]
  cases c.subgraphSource env node spec with
  | error errors => rfl
  | ok source =>
    obtain ⟨key, parsed⟩ := source
    dsimp only
    cases hentered : env.stack.enter key with
    | error e => rfl
    | ok entered =>
      have hexit := SourceStack.exit_of_enter hentered
      have hset : (set entered : StateM SourceStack PUnit).run env.stack = (⟨⟩, entered) := rfl
      dsimp only
      rw [run_bind_of_run hset]
      cases parsed with
      | error es => exact Prod.ext rfl hexit
      | ok child =>
        rw [run_bind_of_run (h entered child)]
        exact Prod.ext rfl hexit

/-- **What is compiled on the stack is the same as with the stack as an argument, and the stack is
left as it was found.** By induction on the depth. -/
theorem run_assembleOn (c : Compiler) (store : Option Store) (depth : Nat) (stack : SourceStack)
    (d : Definition) :
    (c.assembleOn store depth d).run stack = (c.assemble store depth stack d, stack) := by
  induction depth generalizing stack d with
  | zero => rfl
  | succ depth ih =>
    cases hd : d.faults with
    | cons first rest =>
      unfold assembleOn assemble
      rw [hd]
      rfl
    | nil =>
      rw [assemble_succ c store depth stack hd]
      unfold assembleOn
      rw [hd]
      have hget : (get : StateM SourceStack SourceStack).run stack = (stack, stack) := rfl
      have hnodes : (c.nodesOn (c.subgraphOn (c.assembleOn store depth)) (c.surroundings stack d)
          d.nodes).run stack = (c.nodesOf (c.innerAt store depth) (c.surroundings stack d) d.nodes,
            stack) :=
        run_nodesOn (fun node spec => run_subgraphOn ih (c.surroundings stack d) node spec) d.nodes
      dsimp only
      rw [run_bind_of_run hget]
      exact run_bind_of_run hnodes

end Compiler

end WorkflowGraph
