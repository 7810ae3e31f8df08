import WorkflowGraph.Proofs.Compiler.Assemble
import WorkflowGraph.Proofs.Definition.Reading

/-!
# Inline definitions and loaded ones

The definition inside a subgraph is given inline, as a value, or by a reference to a text. A value
has lost the order in which the nodes were written: the definition that it gives has them in rising
order of their ids, and the entry, the order of the errors and all else that follows the order of
declaration go by that (`inline_drops_declaration_order`). Where the ids rise in the text too, both
are compiled to the same node (`inline_compiles_as_loaded`). The keys that identify the definitions
around are not the same, and matter only where one is refused because it encloses itself
(`Compiler.assemble_restack`).
-/

set_option autoImplicit false

namespace WorkflowGraph

/-- Whether an error refuses a definition that encloses itself, inside however many subgraphs. -/
inductive CompileError.IsCircular : CompileError → Prop where
  | here (keys : List String) : IsCircular (.definition (.circularSubgraph keys))
  | inside {node : String} {errors : List CompileError} {e : CompileError} (he : e ∈ errors)
    (h : IsCircular e) : IsCircular (.subgraph node errors)

/-- Whether no definition has been refused because it encloses itself. -/
def Staged.IsAcyclic {α : Type} (s : Staged α) : Prop := ∀ e ∈ s.errors, ¬ e.IsCircular

theorem Staged.isAcyclic_of_isEmpty {α : Type} {s : Staged α} (h : s.errors.isEmpty = true) :
    s.IsAcyclic := by
  intro e he
  rw [List.isEmpty_iff.1 h] at he
  cases he

/-- The subgraph in a node, looking through maps. -/
def NodeKind.nested? : NodeKind → Option SubgraphSpec
  | .subgraph spec => some spec
  | .map _ _ inner => inner.nested?
  | _ => none

/-- Whether no reference in a definition, or in one that is inline in it, depends on where the
definition stands. -/
inductive Definition.Anchored (l : SourceLoader) : Definition → Prop where
  | intro {d : Definition}
    (hreferences : ∀ node ∈ d.nodes, ∀ spec, node.kind.nested? = some spec →
      ∀ reference, spec.graph = some reference → ∀ base other,
        l.load reference base = l.load reference other)
    (hinline : ∀ node ∈ d.nodes, ∀ spec, node.kind.nested? = some spec →
      ∀ v, spec.definition = some v → ∀ child, Definition.ofValue v = .ok child →
        Anchored l child) :
    Anchored l d

namespace Compiler

variable {c : Compiler} {store : Option Store} {stack other : SourceStack} {d : Definition}

/-! ## The stack of the definitions around -/

/-- What the nodes of a definition are compiled in, below other definitions. -/
def Surroundings.restack (env : Surroundings) (other : SourceStack) : Surroundings :=
  { env with stack := other }

/-- A node does not depend on the definitions around it where the graph in it does not. By induction
on its kind, through the nodes inside maps. -/
theorem nodeOf_restack {inner : Inner} {env : Surroundings} (kind : NodeKind)
    (hinner : ∀ node spec, kind.nested? = some spec → (inner env node spec).IsAcyclic →
      (inner (env.restack other) node spec).IsAcyclic →
      inner env node spec = inner (env.restack other) node spec)
    {id : String} {options : NodeOptions} {skip : Bool}
    (h : (c.nodeOf inner env id options skip kind).IsAcyclic)
    (hother : (c.nodeOf inner (env.restack other) id options skip kind).IsAcyclic) :
    c.nodeOf inner env id options skip kind =
      c.nodeOf inner (env.restack other) id options skip kind := by
  induction kind generalizing id options skip with
  | transform spec => rfl
  | router spec => rfl
  | agent spec => rfl
  | interrupt spec => rfl
  | passthrough spec => rfl
  | map spec innerOptions kind ih =>
    unfold nodeOf
    rw [ih hinner h hother]
  | subgraph spec =>
    unfold nodeOf
    dsimp only
    rw [hinner ⟨id, .subgraph spec, options⟩ spec rfl h hother]

theorem nodesOf_restack {inner : Inner} {env : Surroundings} {nodes : List NodeDecl}
    (hinner : ∀ n ∈ nodes, ∀ node spec, n.kind.nested? = some spec →
      (inner env node spec).IsAcyclic → (inner (env.restack other) node spec).IsAcyclic →
      inner env node spec = inner (env.restack other) node spec)
    (h : ∀ e ∈ (c.nodesOf inner env nodes).2, ¬ e.IsCircular)
    (hother : ∀ e ∈ (c.nodesOf inner (env.restack other) nodes).2, ¬ e.IsCircular) :
    c.nodesOf inner env nodes = c.nodesOf inner (env.restack other) nodes := by
  induction nodes with
  | nil => rfl
  | cons node rest ih =>
    obtain ⟨hnode, hrest⟩ := List.forall_mem_cons.1 hinner
    unfold nodesOf at h hother ⊢
    dsimp only at h hother ⊢
    rw [List.forall_mem_append] at h hother
    have hmade := nodeOf_restack (c := c) node.kind hnode h.1 hother.1
    have hskip : isSkipped (env.restack other) node = isSkipped env node := rfl
    rw [hskip] at hother ⊢
    rw [hmade, ih hrest h.2 hother.2]

/-- Every error of a node is one of the definition. -/
theorem nodesOf_errors_subset {inner : Inner} :
    (c.nodesOf inner (c.surroundings stack d) d.nodes).2 ⊆
      (Staged.ofExcept (c.link inner store stack d)).errors := by
  intro e he
  unfold link linkNodes
  dsimp only
  split
  · next hnone _ _ =>
    rw [(List.append_eq_nil_iff.1 hnone).2] at he
    cases he
  · exact List.mem_append_right _ he

theorem link_restack {inner : Inner}
    (h : c.nodesOf inner (c.surroundings stack d) d.nodes =
      c.nodesOf inner (c.surroundings other d) d.nodes) :
    c.link inner store stack d = c.link inner store other d := by
  unfold link
  rw [h]

/-- Whether a definition means the same on two stacks: the current one is the same, or nothing in
the definition depends on it. -/
def Agrees (c : Compiler) (stack other : SourceStack) (d : Definition) : Prop :=
  stack.current? = other.current? ∨ d.Anchored c.loader

theorem current?_enter {stack entered : SourceStack} {key : String}
    (h : stack.enter key = .ok entered) : entered.current? = some key := by
  unfold SourceStack.enter at h
  split at h
  · cases h
  · cases h
    exact List.getLast?_concat

/-- A definition below a subgraph means the same on two stacks where the one around does. -/
theorem Agrees.source {env : Surroundings} (hagrees : c.Agrees env.stack other d) {n : NodeDecl}
    (hn : n ∈ d.nodes) {spec : SubgraphSpec} (hspec : n.kind.nested? = some spec)
    (node : NodeDecl) :
    (∃ errors, c.subgraphSource env node spec = .error errors ∧
      c.subgraphSource (env.restack other) node spec = .error errors) ∨
    ∃ key key' parsed, c.subgraphSource env node spec = .ok (key, parsed) ∧
      c.subgraphSource (env.restack other) node spec = .ok (key', parsed) ∧
      ∀ child, parsed = .ok child → key = key' ∨ child.Anchored c.loader := by
  unfold subgraphSource Surroundings.restack
  dsimp only
  cases hgraph : spec.graph with
  | some reference =>
    have hload : c.loader.load reference env.stack.current? =
        c.loader.load reference other.current? := by
      rcases hagrees with hcurrent | hanchored
      · rw [hcurrent]
      · cases hanchored with | intro hreferences _ =>
        exact hreferences n hn spec hspec reference hgraph _ _
    dsimp only
    rw [← hload]
    cases c.loader.load reference env.stack.current? with
    | error fault => exact .inl ⟨_, rfl, rfl⟩
    | ok source => exact .inr ⟨_, _, _, rfl, rfl, fun _ _ => .inl rfl⟩
  | none =>
    cases hinline : spec.definition with
    | none => exact .inl ⟨_, rfl, rfl⟩
    | some v =>
      refine .inr ⟨_, _, _, rfl, rfl, fun child hchild => ?_⟩
      rcases hagrees with hcurrent | hanchored
      · rw [hcurrent]
        exact .inl rfl
      · cases hanchored with | intro _ hinlines =>
        exact .inr (hinlines n hn spec hspec v hinline child hchild)

/-- What the definition inside a subgraph is compiled to, once it has been entered. -/
def inside (c : Compiler) (store : Option Store) (depth : Nat) (entered : SourceStack)
    (parsed : Except (List DefinitionError) Definition) : Except (List CompileError) Graph :=
  match parsed with
  | .ok child => c.assemble store depth entered child
  | .error es => .error (es.map .definition)

variable {depth : Nat} {env : Surroundings} {node : NodeDecl} {spec : SubgraphSpec} {key : String}
  {parsed : Except (List DefinitionError) Definition}

theorem innerAt_of_entered (hsource : c.subgraphSource env node spec = .ok (key, parsed))
    {entered : SourceStack} (hentered : env.stack.enter key = .ok entered) :
    c.innerAt store depth env node spec =
      Staged.ofExcept ((c.inside store depth entered parsed).mapError fun es =>
        [.subgraph node.id es]) := by
  unfold innerAt
  rw [hsource]
  dsimp only
  rw [hentered]
  rfl

/-- A subgraph that is not refused because it encloses itself has been entered. -/
theorem exists_entered (hsource : c.subgraphSource env node spec = .ok (key, parsed))
    (h : (c.innerAt store depth env node spec).IsAcyclic) :
    ∃ entered, env.stack.enter key = .ok entered := by
  cases hentered : env.stack.enter key with
  | ok entered => exact ⟨entered, rfl⟩
  | error e =>
    unfold innerAt at h
    rw [hsource] at h
    dsimp only at h
    rw [hentered] at h
    unfold SourceStack.enter at hentered
    split at hentered
    · cases hentered
      exact absurd (.here _) (h _ List.mem_cons_self)
    · cases hentered

theorem isAcyclic_of_inside {made : Except (List CompileError) Graph} {id : String}
    (h : (Staged.ofExcept (made.mapError fun es => [CompileError.subgraph id es])).IsAcyclic) :
    (Staged.ofExcept made).IsAcyclic := by
  cases made with
  | ok g => exact fun e he => absurd he List.not_mem_nil
  | error es => exact fun e he hcircular => h _ List.mem_cons_self (.inside he hcircular)

/-- A subgraph is compiled to the same on two stacks where what is inside is. -/
theorem innerAt_eq {env' : Surroundings} {node' : NodeDecl} {spec' : SubgraphSpec} {key' : String}
    (hsource : c.subgraphSource env node spec = .ok (key, parsed))
    (hsource' : c.subgraphSource env' node' spec' = .ok (key', parsed)) (hid : node.id = node'.id)
    (hinside : ∀ child entered entered', parsed = .ok child → env.stack.enter key = .ok entered →
      env'.stack.enter key' = .ok entered' →
      (Staged.ofExcept (c.assemble store depth entered child)).IsAcyclic →
      (Staged.ofExcept (c.assemble store depth entered' child)).IsAcyclic →
      c.assemble store depth entered child = c.assemble store depth entered' child)
    (h : (c.innerAt store depth env node spec).IsAcyclic)
    (h' : (c.innerAt store depth env' node' spec').IsAcyclic) :
    c.innerAt store depth env node spec = c.innerAt store depth env' node' spec' := by
  obtain ⟨entered, hentered⟩ := exists_entered hsource h
  obtain ⟨entered', hentered'⟩ := exists_entered hsource' h'
  rw [innerAt_of_entered hsource hentered] at h ⊢
  rw [innerAt_of_entered hsource' hentered'] at h' ⊢
  rw [hid]
  have hmade := isAcyclic_of_inside h
  have hmade' := isAcyclic_of_inside h'
  cases parsed with
  | error es => rfl
  | ok child =>
    have heq : c.inside store depth entered (.ok child) =
        c.inside store depth entered' (.ok child) :=
      hinside child entered entered' rfl hentered hentered' hmade hmade'
    rw [heq]

/-- **The definitions around matter only where one is refused because it encloses itself.** By
induction on the depth, through the definitions inside subgraphs. -/
theorem assemble_restack (hagrees : c.Agrees stack other d)
    (h : (Staged.ofExcept (c.assemble store depth stack d)).IsAcyclic)
    (h' : (Staged.ofExcept (c.assemble store depth other d)).IsAcyclic) :
    c.assemble store depth stack d = c.assemble store depth other d := by
  induction depth generalizing stack other d with
  | zero => exact absurd (.here _) (h _ List.mem_cons_self)
  | succ depth ih =>
    cases hd : d.faults with
    | cons first rest =>
      unfold assemble
      rw [hd]
    | nil =>
      rw [assemble_succ c store depth stack hd] at h ⊢
      rw [assemble_succ c store depth other hd] at h' ⊢
      refine link_restack ?_
      have hnodes := fun e he => h e (nodesOf_errors_subset he)
      have hnodes' := fun e he => h' e (nodesOf_errors_subset he)
      refine nodesOf_restack (fun n hn node spec hspec hinner hinner' => ?_) hnodes hnodes'
      have hsurrounded : c.Agrees (c.surroundings stack d).stack other d := hagrees
      rcases hsurrounded.source hn hspec node with ⟨errors, hsource, hsource'⟩ |
        ⟨key, key', parsed, hsource, hsource', hchild⟩
      · unfold innerAt
        rw [hsource, hsource']
      · refine innerAt_eq hsource hsource' rfl (fun child entered entered' hparsed hentered
          hentered' => ih ?_) hinner hinner'
        refine (hchild child hparsed).imp_left fun hkey => ?_
        rw [current?_enter hentered, current?_enter hentered', hkey]

end Compiler

theorem Definition.anchored_of_forall {l : SourceLoader} {d : Definition}
    (h : ∀ node ∈ d.nodes, node.kind.nested? = none) : d.Anchored l := by
  refine .intro (fun node hnode spec hspec => ?_) fun node hnode spec hspec => ?_
  · rw [h node hnode] at hspec
    cases hspec
  · rw [h node hnode] at hspec
    cases hspec

/-- **A subgraph is compiled to the same from a value and from a text with this value.** In whatever
order the text gives the nodes, the definitions that are read differ in this order at most, or in
the order of the errors; the value gives the nodes in rising order of their ids. Where these rise in
the text too, and no reference depends on where the definition stands, the compiled nodes are equal,
or the errors are, unless one of them says that a definition encloses itself: that one names the
keys of the definitions around. -/
theorem inline_compiles_as_loaded (c : Compiler) (env : Compiler.Surroundings) (reference : String)
    {source : Source} (hload : c.loader.load reference env.stack.current? = .ok source)
    {root : Yaml.Node} (hroot : Yaml.read? source.text = some root) (hplain : root.isPlain = true)
    {v : Value} (hv : root.toValue? = some v) :
    Definition.Reordered (Definition.parse source.text) (Definition.ofValue v) ∧
    (∀ d, Definition.ofValue v = .ok d → d.nodeIds.Pairwise (· < ·)) ∧
    (Definition.NodesRise root →
      (∀ d, Definition.parse source.text = .ok d → d.Anchored c.loader) →
      ∀ (store : Option Store) (depth : Nat) (id : String) (options : NodeOptions) (skip : Bool)
        (input output interrupt : Dict String),
        let compiled (graph : Option String) (definition : Option Value) :=
          c.nodeOf (c.innerAt store depth) env id options skip
            (.subgraph ⟨graph, definition, input, output, interrupt⟩)
        (compiled none (some v)).IsAcyclic → (compiled (some reference) none).IsAcyclic →
          compiled none (some v) = compiled (some reference) none) := by
  refine ⟨Definition.ofValue_reordered hroot hplain hv,
    fun d hd => Definition.nodeIds_ofValue_rise hroot hplain hv hd, ?_⟩
  intro hrise hanchored store depth id options skip input output interrupt compiled hinline hloaded
  let spec (graph : Option String) (definition : Option Value) : SubgraphSpec :=
    ⟨graph, definition, input, output, interrupt⟩
  let node (spec : SubgraphSpec) : NodeDecl := ⟨id, .subgraph spec, options⟩
  have hsource : c.subgraphSource env (node (spec none (some v))) (spec none (some v)) =
      .ok (env.stack.current?.getD env.definition.name ++ "#" ++ id,
        Definition.parse source.text) := by
    rw [← Definition.ofValue_eq_parse hroot hplain hv hrise]
    rfl
  have hsource' : c.subgraphSource env (node (spec (some reference) none))
      (spec (some reference) none) = .ok (source.key, Definition.parse source.text) := by
    unfold Compiler.subgraphSource
    dsimp only [spec]
    rw [hload]
  have hinner := Compiler.innerAt_eq hsource hsource' rfl
    (fun child _ _ hchild _ _ => Compiler.assemble_restack (.inr (hanchored child hchild)))
    hinline hloaded
  change (c.innerAt store depth env _ _).map _ = (c.innerAt store depth env _ _).map _
  rw [hinner]
  rfl

/-! ## Two nodes in a line -/

/-- A definition whose nodes are written in rising order of their ids. -/
def risingText : String :=
  "{name: line, nodes: {a: {type: passthrough}, b: {type: passthrough}}, edges: [{from: a, to: b},
    {from: b, to: END}]}"

/-- A definition whose second node has the lesser id. -/
def fallingText : String :=
  "{name: line, nodes: {b: {type: passthrough}, a: {type: passthrough}}, edges: [{from: b, to: a},
    {from: a, to: END}]}"

/-- A compiler that loads one text. -/
def lineCompiler (text : String) : Compiler :=
  { bareCompiler with loader := .texts [("line", text)] }

/-- What a subgraph is compiled in, with nothing else around it. -/
def lineSurroundings : Compiler.Surroundings :=
  ⟨⟨none, "around", none, none, .standard, [], [], [], [], none⟩, none, [], .empty⟩

/-- A subgraph whose definition is inline, or is loaded from a text. -/
def lineNode (text : String) (graph : Option String) (definition : Option Value) :
    Staged GraphNode :=
  (lineCompiler text).nodeOf ((lineCompiler text).innerAt none 1) lineSurroundings "inner" .unset
    false (.subgraph ⟨graph, definition, [], [], []⟩)

/-- The subgraph is compiled without errors, and to the same node from the value of the text. -/
theorem rising_line_compiles :
    ∃ v, (Yaml.read? risingText).bind Yaml.Node.toValue? = some v ∧
      (lineNode risingText none (some v)).errors = [] ∧
      lineNode risingText none (some v) = lineNode risingText (some "line") none := by
  have hchecks : ((Yaml.read? risingText).any fun root =>
      root.isPlain && decide (Definition.NodesRise root) && root.toValue?.any fun v =>
        ((Definition.ofValue v).toOption.all fun d =>
          d.nodes.all fun node => node.kind.nested?.isNone) &&
        (lineNode risingText none (some v)).errors.isEmpty &&
        (lineNode risingText (some "line") none).errors.isEmpty) = true := by
    decide +kernel
  obtain ⟨root, hroot, hchecks⟩ := (Option.any_eq_true _ _).1 hchecks
  simp only [Bool.and_eq_true, decide_eq_true_eq] at hchecks
  obtain ⟨⟨hplain, hrise⟩, hchecks⟩ := hchecks
  obtain ⟨v, hv, hchecks⟩ := (Option.any_eq_true _ _).1 hchecks
  simp only [Bool.and_eq_true] at hchecks
  obtain ⟨⟨hnodes, hinline⟩, hloaded⟩ := hchecks
  have hanchored (d : Definition) (hd : Definition.parse risingText = .ok d) :
      d.Anchored (lineCompiler risingText).loader := by
    rw [Definition.ofValue_eq_parse hroot hplain hv hrise, hd] at hnodes
    exact Definition.anchored_of_forall fun node hnode =>
      Option.isNone_iff_eq_none.1 (List.all_eq_true.1 hnodes node hnode)
  have hvalue : (Yaml.read? risingText).bind Yaml.Node.toValue? = some v := by
    rw [hroot]
    exact hv
  have hload : (lineCompiler risingText).loader.load "line" none =
      .ok ⟨"line", risingText⟩ := rfl
  refine ⟨v, hvalue, List.isEmpty_iff.1 hinline, ?_⟩
  exact (inline_compiles_as_loaded (lineCompiler risingText) lineSurroundings "line" hload hroot
    hplain hv).2.2 hrise hanchored none 1 "inner" .unset false [] [] []
      (Staged.isAcyclic_of_isEmpty hinline) (Staged.isAcyclic_of_isEmpty hloaded)

/-- Whether a node is a subgraph that starts at a node. -/
def GraphNode.startsAt (start : String) : GraphNode → Bool
  | .subgraph _ _ inner _ => inner.table.entry == start
  | _ => false

/-- **The order in which nodes are written is lost.** Loaded, the definition starts at the node that
is written first. Inline, it starts at the one with the least id, and the other is not reached. -/
theorem inline_drops_declaration_order :
    ∃ v, (Yaml.read? fallingText).bind Yaml.Node.toValue? = some v ∧
      (lineNode fallingText none (some v)).errors.map CompileError.message =
        ["subgraph `inner`: node `b` is unreachable from entry `a`"] ∧
      (lineNode fallingText (some "line") none).errors = [] ∧
      ∃ node, (lineNode fallingText (some "line") none).made = some node ∧ node.startsAt "b" := by
  have hinline : ((Yaml.read? fallingText).bind Yaml.Node.toValue?).any (fun v =>
      (lineNode fallingText none (some v)).errors.map CompileError.message ==
        ["subgraph `inner`: node `b` is unreachable from entry `a`"]) = true := by
    decide +kernel
  have hloaded : ((lineNode fallingText (some "line") none).errors.isEmpty &&
      (lineNode fallingText (some "line") none).made.any (GraphNode.startsAt "b")) = true := by
    decide +kernel
  rw [Bool.and_eq_true] at hloaded
  obtain ⟨v, hv, hinline⟩ := (Option.any_eq_true _ _).1 hinline
  obtain ⟨node, hnode, hstarts⟩ := (Option.any_eq_true _ _).1 hloaded.2
  exact ⟨v, hv, beq_iff_eq.1 hinline, List.isEmpty_iff.1 hloaded.1, node, hnode, hstarts⟩

end WorkflowGraph
