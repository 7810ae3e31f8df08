import WorkflowGraph.Proofs.Compiler.Embedding
import WorkflowGraph.Validator.Report

/-!
# What the validator says of a file

The validator compiles a file with executors that do every task, with a store, and with placeholders
for the tools that the file declares. Two such compilers differ in their tools only, so one of them
succeeds exactly where the other does and its tools are enough for all definitions that compilation
comes to (`Compiler.assembles_iff`). Hence a file is valid exactly if it compiles where everything is
at hand that it asks for, and the definitions inside it declare no binding that it does not declare
itself (`Validator.valid_iff_compiles_and_covers`). Where they do, a binding is reported as not
registered, though the definition compiles.
-/

set_option autoImplicit false

namespace WorkflowGraph

/-- The names of registered tools that a definition binds its tools to. -/
def Definition.bindings (d : Definition) : List String := d.tools.map fun p => p.2.binding.getD p.1

/-- Whether all tools that a definition asks for are registered. -/
def ToolRegistry.Provides (r : ToolRegistry) (d : Definition) : Prop :=
  ∀ binding ∈ d.bindings, r.has binding = true

/-- Whether an error reports a tool that is not registered, inside however many subgraphs. -/
inductive CompileError.IsUnbound : CompileError → Prop where
  | here (tool binding : String) : IsUnbound (.definition (.unresolvedToolBinding tool binding))
  | inside {node : String} {errors : List CompileError} {e : CompileError} (he : e ∈ errors)
    (h : IsUnbound e) : IsUnbound (.subgraph node errors)

theorem CompileError.IsPlain.not_isUnbound {e : CompileError} (h : e.IsPlain) : ¬ e.IsUnbound := by
  rintro (⟨tool, binding⟩ | _)
  · exact h.2 tool binding rfl
  · exact h

namespace Compiler

variable {c c' : Compiler} {d : Definition} {inner : Inner} {env : Surroundings}
  {store store' : Option Store} {kept : Store} {stack : SourceStack} {depth : Nat} {s t : Site}
  {ids : List String}

/-! ## Compilers that bind every task -/

/-- Whether there is an executor for every backend, and each does every task. -/
def Permits (c : Compiler) : Prop :=
  ∀ backend, ∃ e, c.executors backend = .ok e ∧ ∀ task, e.supports task = true

theorem errors_bindTools_eq_nil_iff : (c.bindTools d.tools).2 = [] ↔ c.tools.Provides d := by
  rw [List.eq_nil_iff_forall_not_mem]
  simp only [mem_errors_bindTools_iff, ToolRegistry.Provides, Definition.bindings, List.mem_map]
  constructor
  · rintro h _ ⟨p, hp, rfl⟩
    by_contra hmissing
    refine h _ ⟨p, hp, ?_, rfl⟩
    simpa [ToolRegistry.has, ToolRegistry.get?, Dict.has] using hmissing
  · rintro h e ⟨p, hp, hmissing, -⟩
    have hfound := h _ ⟨p, hp, rfl⟩
    rw [ToolRegistry.has, Dict.has, ← ToolRegistry.get?, hmissing] at hfound
    cases hfound

theorem Permits.exists_executorFor (hc : c.Permits) (node task : String) (backend : Option Value) :
    ∃ e, c.executorFor node task backend = .ok e := by
  obtain ⟨e, he, htasks⟩ := hc backend
  exact ⟨e, by rw [executorFor, he]; exact if_pos (htasks task)⟩

theorem Permits.exists_bindTask (hc : c.Permits) (d : Definition) (node : NodeDecl) (task : String) :
    ∃ binding, c.bindTask d node task = .ok binding := by
  have hnone {backend : Option Value} {errors : List CompileError} :
      c.executorFor node.id task backend ≠ .error errors := by
    obtain ⟨e, he⟩ := hc.exists_executorFor node.id task backend
    rw [he]
    exact fun h => nomatch h
  cases h : c.bindTask d node task with
  | ok binding => exact ⟨binding, rfl⟩
  | error errors =>
    unfold bindTask at h
    rcases error_of_bind h with hprimary | ⟨primary, -, h⟩
    · exact absurd hprimary hnone
    · split at h
      · rcases error_of_bind h with hfallback | ⟨fallback, -, h⟩
        · exact absurd hfallback hnone
        · cases h
      · cases h

/-- A node reports nothing but what the subgraph in it reports. By induction on its kind, through the
nodes inside maps. -/
theorem Permits.errors_nodeOf_eq_nil_iff (hc : c.Permits) (kind : NodeKind) {id : String}
    {options : NodeOptions} {skip : Bool} :
    (c.nodeOf inner env id options skip kind).errors = [] ↔
      ∀ node spec, NodeDecl.subgraph? id options kind = some (node, spec) →
        (inner env node spec).errors = [] := by
  have hbind := hc.exists_bindTask env.definition
  have hleaf {kind : NodeKind} {id : String} {options : NodeOptions} {errors : List CompileError}
      (hnone : NodeDecl.subgraph? id options kind = none) (h : errors = []) :
      errors = [] ↔ ∀ node spec, NodeDecl.subgraph? id options kind = some (node, spec) →
        (inner env node spec).errors = [] := by
    simp [hnone, h]
  induction kind generalizing id options skip with
  | map spec innerOptions kind ih => exact ih
  | subgraph spec =>
    constructor
    · rintro h node spec' ⟨⟩
      exact h
    · exact fun h => h _ spec rfl
  | passthrough spec => exact hleaf rfl rfl
  | agent spec =>
    refine hleaf rfl ?_
    obtain ⟨binding, hbinding⟩ := hbind ⟨id, .agent spec, options⟩ spec.task
    show (c.agentOf env ⟨id, .agent spec, options⟩ spec).errors = []
    rw [agentOf, hbinding]
    rfl
  | router spec =>
    refine hleaf rfl ?_
    show (c.routerOf env ⟨id, .router spec, options⟩ spec).errors = []
    unfold routerOf
    split
    · next task _ =>
      obtain ⟨binding, hbinding⟩ := hbind ⟨id, .router spec, options⟩ task
      rw [hbinding]
      rfl
    · rfl
    · rfl
  | transform spec =>
    refine hleaf rfl ?_
    show (c.transformOf env ⟨id, .transform spec, options⟩ spec).errors = []
    unfold transformOf
    split
    · next task _ =>
      obtain ⟨binding, hbinding⟩ := hbind ⟨id, .transform spec, options⟩ task
      rw [hbinding]
    · split
      · rfl
      · rfl
    · rfl
  | interrupt spec =>
    refine hleaf rfl ?_
    show (c.interruptOf env ⟨id, .interrupt spec, options⟩ spec skip).errors = []
    unfold interruptOf
    split
    · rfl
    · next task _ _ =>
      obtain ⟨binding, hbinding⟩ := hbind ⟨id, .interrupt spec, options⟩ task
      rw [hbinding]
    · rfl

theorem Permits.errors_nodesOf_eq_nil_iff (hc : c.Permits) {nodes : List NodeDecl} :
    (c.nodesOf inner env nodes).2 = [] ↔
      ∀ n ∈ nodes, ∀ node spec, NodeDecl.subgraph? n.id n.options n.kind = some (node, spec) →
        (inner env node spec).errors = [] := by
  induction nodes with
  | nil => simp [nodesOf]
  | cons n rest ih =>
    unfold nodesOf
    dsimp only
    rw [List.append_eq_nil_iff, ih, hc.errors_nodeOf_eq_nil_iff, List.forall_mem_cons]

/-- **A definition is linked on a store exactly if** its shape and its transitions are found, its tools
are registered, and the graphs inside it are made without errors. -/
theorem Permits.exists_link_iff (hc : c.Permits) :
    (∃ g, c.link inner (some kept) stack d = .ok g) ↔
      ((∃ shape, StateShape.infer d = .ok shape) ∧
        ∃ table, TransitionTable.ofDefinition d = .ok table) ∧
      c.tools.Provides d ∧
      ∀ n ∈ d.nodes, ∀ node spec, NodeDecl.subgraph? n.id n.options n.kind = some (node, spec) →
        (inner (c.surroundings stack d) node spec).errors = [] := by
  rw [← errors_bindTools_eq_nil_iff, ← hc.errors_nodesOf_eq_nil_iff]
  constructor
  · rintro ⟨g, hg⟩
    have hlinked := linked_of_link hg
    refine ⟨⟨⟨_, hlinked.shape⟩, ⟨_, hlinked.table⟩⟩, hlinked.tools, ?_⟩
    rw [hlinked.surroundings_eq]
    exact hlinked.errors
  · rintro ⟨⟨⟨shape, hshape⟩, ⟨table, htable⟩⟩, htools, hnodes⟩
    refine ⟨⟨⟨d.name, table, shape, .ofDefaults d.defaults, some kept⟩,
      (c.nodesOf inner (c.surroundings stack d) d.nodes).1⟩, ?_⟩
    unfold link linkNodes
    simp [hshape, htable, htools, hnodes, Except.mapError, Staged.ofExcept, Staged.ok]

/-! ## Compilers that load the same sources -/

theorem subgraphSource_eq (hloader : c'.loader = c.loader) (node : NodeDecl) (spec : SubgraphSpec) :
    c'.subgraphSource (c'.surroundings stack d) node spec =
      c.subgraphSource (c.surroundings stack d) node spec := by
  unfold subgraphSource
  rw [hloader]
  rfl

theorem Leads.of_loader {id : String} (hloader : c'.loader = c.loader) (h : c.Leads id s t) :
    c'.Leads id s t := by
  cases h with
  | intro hvalid hn hsubgraph hid hsource hentered =>
    exact .intro hvalid hn hsubgraph hid ((subgraphSource_eq hloader _ _).trans hsource) hentered

theorem Way.of_loader (hloader : c'.loader = c.loader) (h : c.Way s ids t) : c'.Way s ids t := by
  induction h with
  | here s => exact .here s
  | inside hleads _ ih => exact .inside (hleads.of_loader hloader) ih

/-- What a subgraph has been entered for is made without errors exactly if it is assembled. -/
theorem errors_innerAt_eq_nil_iff {node : NodeDecl} {spec : SubgraphSpec} {key : String}
    {child : Definition} {entered : SourceStack}
    (hsource : c.subgraphSource env node spec = .ok (key, .ok child))
    (hentered : env.stack.enter key = .ok entered) :
    (c.innerAt store depth env node spec).errors = [] ↔
      ∃ g, c.assemble store depth entered child = .ok g := by
  rw [innerAt_of_entered hsource hentered, inside]
  cases c.assemble store depth entered child with
  | ok g => simp [Except.mapError, Staged.ofExcept, Staged.ok]
  | error errors => simp [Except.mapError, Staged.ofExcept, Staged.refused]

/-- A subgraph is made without errors by one compiler as by another one that loads the same sources,
if the definition inside it is. -/
theorem errors_innerAt_of_loader (hloader : c'.loader = c.loader) {node : NodeDecl}
    {spec : SubgraphSpec}
    (h : (c.innerAt store depth (c.surroundings stack d) node spec).errors = [])
    (hchild : ∀ key child entered,
      c.subgraphSource (c.surroundings stack d) node spec = .ok (key, .ok child) →
      stack.enter key = .ok entered → (∃ g, c.assemble store depth entered child = .ok g) →
        ∃ g, c'.assemble store' depth entered child = .ok g) :
    (c'.innerAt store' depth (c'.surroundings stack d) node spec).errors = [] := by
  have hsame : c'.subgraphSource (c'.surroundings stack d) node spec =
      c.subgraphSource (c.surroundings stack d) node spec := subgraphSource_eq hloader node spec
  cases hsource : c.subgraphSource (c.surroundings stack d) node spec with
  | error errors =>
    unfold innerAt at h ⊢
    rw [hsource] at h
    rw [hsame, hsource]
    exact h
  | ok source =>
    obtain ⟨key, parsed⟩ := source
    rw [hsource] at hsame
    have hstack : (c.surroundings stack d).stack = (c'.surroundings stack d).stack := rfl
    cases hentered : (c.surroundings stack d).stack.enter key with
    | error e =>
      unfold innerAt at h
      rw [hsource] at h
      dsimp only at h
      rw [hentered] at h
      cases h
    | ok entered =>
      cases parsed with
      | error es =>
        rw [innerAt_of_entered hsource hentered] at h
        rw [innerAt_of_entered hsame hentered]
        exact h
      | ok child =>
        have hmade := (errors_innerAt_eq_nil_iff hsource hentered).1 h
        exact (errors_innerAt_eq_nil_iff hsame hentered).2
          (hchild key child entered hsource hentered hmade)

theorem Permits.exists_assemble_iff (hc : c.Permits) :
    (∃ g, c.assemble (some kept) (depth + 1) stack d = .ok g) ↔ d.faults = [] ∧
      ((∃ shape, StateShape.infer d = .ok shape) ∧
        ∃ table, TransitionTable.ofDefinition d = .ok table) ∧
      c.tools.Provides d ∧
      ∀ n ∈ d.nodes, ∀ node spec, NodeDecl.subgraph? n.id n.options n.kind = some (node, spec) →
        (c.innerAt (some kept) depth (c.surroundings stack d) node spec).errors = [] := by
  rw [← hc.exists_link_iff]
  constructor
  · rintro ⟨g, hg⟩
    have hvalid := (linked_of_assemble hg).1
    rw [assemble_succ c (some kept) depth stack hvalid] at hg
    exact ⟨hvalid, g, hg⟩
  · rintro ⟨hvalid, hlink⟩
    rw [assemble_succ c (some kept) depth stack hvalid]
    exact hlink

/-- What compilation goes on to has been assembled where the definition around it has. -/
theorem Permits.assembles_leads (hc : c.Permits) {id : String} (hleads : c.Leads id s t)
    (h : ∃ g, c.assemble (some kept) (depth + 1) s.stack s.definition = .ok g) :
    ∃ g, c.assemble (some kept) depth t.stack t.definition = .ok g := by
  cases hleads with
  | intro hvalid hn hsubgraph hid hsource hentered =>
    obtain ⟨-, -, -, hinner⟩ := hc.exists_assemble_iff.1 h
    exact (errors_innerAt_eq_nil_iff hsource hentered).1 (hinner _ hn _ _ hsubgraph)

/-- **Where a definition is assembled, it has its tools, and so has every one inside it.** By induction
on the way to it. -/
theorem Permits.provides_of_assemble (hc : c.Permits) (hway : c.Way s ids t)
    (h : ∃ g, c.assemble (some kept) depth s.stack s.definition = .ok g) :
    c.tools.Provides t.definition := by
  induction hway generalizing depth with
  | here s =>
    cases depth with
    | zero =>
      obtain ⟨g, hg⟩ := h
      cases hg
    | succ depth => exact (hc.exists_assemble_iff.1 h).2.2.1
  | inside hleads _ ih =>
    cases depth with
    | zero =>
      obtain ⟨g, hg⟩ := h
      cases hg
    | succ depth => exact ih (hc.assembles_leads hleads h)

/-- What one compiler assembles is assembled by another one that loads the same sources and has the
tools of all definitions inside. By induction on the depth. -/
theorem Permits.assembles_of_loader (hc : c.Permits) (hc' : c'.Permits)
    (hloader : c'.loader = c.loader) {kept' : Store}
    (hprovides : ∀ ids t, c.Way s ids t → c'.tools.Provides t.definition)
    (h : ∃ g, c.assemble (some kept) depth s.stack s.definition = .ok g) :
    ∃ g, c'.assemble (some kept') depth s.stack s.definition = .ok g := by
  induction depth generalizing s with
  | zero =>
    obtain ⟨g, hg⟩ := h
    cases hg
  | succ depth ih =>
    obtain ⟨hvalid, hstages, -, hinner⟩ := hc.exists_assemble_iff.1 h
    refine hc'.exists_assemble_iff.2 ⟨hvalid, hstages, hprovides [] s (.here s),
      fun n hn node spec hsubgraph => ?_⟩
    refine errors_innerAt_of_loader hloader (hinner n hn node spec hsubgraph) ?_
    intro key child entered hsource hentered hchild
    have hleads : c.Leads node.id s ⟨entered, child⟩ :=
      .intro hvalid hn hsubgraph rfl hsource hentered
    exact ih (fun ids t hway => hprovides (node.id :: ids) t (.inside hleads hway)) hchild

/-- **Of two compilers that load the same sources, one assembles a definition exactly if** the other
one does, and its tools are enough for this definition and all those inside it. -/
theorem Permits.assembles_iff (hc : c.Permits) (hc' : c'.Permits) (hloader : c'.loader = c.loader)
    {kept' : Store} (hprovides : ∀ ids t, c.Way s ids t → c.tools.Provides t.definition) :
    (∃ g, c'.assemble (some kept') depth s.stack s.definition = .ok g) ↔
      (∃ g, c.assemble (some kept) depth s.stack s.definition = .ok g) ∧
        ∀ ids t, c.Way s ids t → c'.tools.Provides t.definition := by
  constructor
  · intro h
    refine ⟨hc'.assembles_of_loader hc hloader.symm (fun ids t hway => ?_) h, fun ids t hway => ?_⟩
    · exact hprovides ids t (hway.of_loader hloader.symm)
    · exact hc'.provides_of_assemble (hway.of_loader hloader) h
  · rintro ⟨h, hcovers⟩
    exact hc.assembles_of_loader hc' hloader hcovers h

/-! ## Tools that are not registered -/

/-- What is reported of a subgraph itself is not that a tool is not registered. -/
theorem not_isUnbound_of_mem_innerAt {node : NodeDecl} {spec : SubgraphSpec} {e : DefinitionError}
    (h : .definition e ∈ (c.innerAt store depth env node spec).errors) :
    ¬ CompileError.IsUnbound (.definition e) := by
  cases hsource : c.subgraphSource env node spec with
  | error errors =>
    unfold innerAt at h
    rw [hsource] at h
    exact (isPlain_of_subgraphSource hsource _ h).not_isUnbound
  | ok source =>
    obtain ⟨key, parsed⟩ := source
    cases hentered : env.stack.enter key with
    | error fault =>
      unfold innerAt at h
      rw [hsource] at h
      dsimp only at h
      rw [hentered] at h
      cases List.mem_singleton.1 h
      obtain ⟨-, rfl⟩ := SourceStack.enter_eq_error_iff.1 hentered
      rintro ⟨⟩
    | ok entered =>
      rw [innerAt_of_entered hsource hentered, errors_ofExcept_mapError] at h
      obtain ⟨es, -, ⟨⟩⟩ := h

/-- **Where all definitions have their tools, none is reported as not registered.** By induction on the
depth. -/
theorem not_isUnbound_of_provides
    (h : ∀ ids t, c.Way s ids t → c.tools.Provides t.definition) :
    ∀ e ∈ (Staged.ofExcept (c.assemble store depth s.stack s.definition)).errors,
      ¬ e.IsUnbound := by
  induction depth generalizing s with
  | zero =>
    intro e he
    cases List.mem_singleton.1 he
    rintro ⟨⟩
  | succ depth ih =>
    intro e he hunbound
    have hplain : ¬ e.IsPlain := fun hplain => hplain.not_isUnbound hunbound
    obtain ⟨hvalid, hfound⟩ := (mem_errors_assemble_or_iff hplain).1 he
    rcases hfound with he | ⟨n, hn, node, spec, hsubgraph, he⟩
    · rw [errors_bindTools_eq_nil_iff.2 (h [] s (.here s))] at he
      cases he
    · cases hunbound with
      | here tool binding => exact not_isUnbound_of_mem_innerAt he (.here tool binding)
      | @inside id errors e' he' hunbound =>
        obtain ⟨-, key, parsed, entered, hsource, hentered, hinside⟩ := subgraph_mem_innerAt_iff.1 he
        cases parsed with
        | error es =>
          cases hinside
          obtain ⟨fault, hfault, rfl⟩ := List.mem_map.1 he'
          have hplain : CompileError.IsPlain (.definition fault) :=
            isPlain_of_parsed hsource fault hfault
          exact hplain.not_isUnbound hunbound
        | ok child =>
          have hleads : c.Leads node.id s ⟨entered, child⟩ :=
            .intro hvalid hn hsubgraph rfl hsource hentered
          have hchild : c.assemble store depth entered child = .error errors := hinside
          refine ih (s := ⟨entered, child⟩) (fun ids t hway => ?_) e' ?_ hunbound
          · exact h (node.id :: ids) t (.inside hleads hway)
          · dsimp only
            rw [hchild]
            exact he'

/-! ## Files -/

variable {files : SourceFiles} {path text : String}

/-- Whether compilation of a file comes to a definition: the one in the file, or one inside it. -/
def Reaches (c : Compiler) (files : SourceFiles) (path : String) (d : Definition) : Prop :=
  ∃ source root ids t, files.load path none = .ok source ∧
    Definition.parse source.text = .ok root ∧ c.Way ⟨.rootedAt source.key, root⟩ ids t ∧
      t.definition = d

/-- Whether a compiler has at hand whatever a file asks for: a store, an executor for every task, and
all tools that are declared in the file or in a definition inside it. -/
structure Supplies (c : Compiler) (files : SourceFiles) (path : String) : Prop where
  loader : c.loader = .files files
  permits : c.Permits
  store : ∃ kept, c.store = some kept
  tools : ∀ d, c.Reaches files path d → c.tools.Provides d

/-- Whether a text declares all bindings that are declared in a file or in a definition inside it. -/
def Covers (c : Compiler) (files : SourceFiles) (path text : String) : Prop :=
  ∀ d, c.Reaches files path d → ∀ binding ∈ d.bindings,
    ∃ root, Definition.parse text = .ok root ∧ binding ∈ root.bindings

theorem storeFor_of_store (hstore : c.store = some kept) (d : Definition) :
    c.storeFor d = .ok (some kept) := by
  unfold storeFor
  rw [hstore]

/-- A text compiles exactly if it is read and its definition is assembled. -/
theorem exists_compileIn_iff (hstore : c.store = some kept) :
    (∃ g, c.compileIn stack text = .ok g) ↔ ∃ root, Definition.parse text = .ok root ∧
      ∃ g, c.assemble (some kept) c.maxDepth stack root = .ok g := by
  unfold compileIn
  cases hroot : Definition.parse text with
  | error es => simp [Except.mapError, bind, Except.bind]
  | ok root =>
    dsimp only [Except.mapError, bind, Except.bind]
    rw [storeFor_of_store hstore]
    dsimp only
    rw [run_assembleOn]
    cases hmade : c.assemble (some kept) c.maxDepth stack root with
    | error errors => simp [hmade]
    | ok g => simp [hmade, pure, Except.pure]

theorem exists_compileFile_iff (hstore : c.store = some kept) :
    (∃ g, c.compileFile files path = .ok g) ↔ ∃ source root,
      files.load path none = .ok source ∧ Definition.parse source.text = .ok root ∧
        ∃ g, c.assemble (some kept) c.maxDepth (.rootedAt source.key) root = .ok g := by
  unfold compileFile compileLoaded
  cases hload : files.load path none with
  | error fault => simp
  | ok source => simp [exists_compileIn_iff hstore]

/-- **A file compiles with tools exactly if** it compiles where everything is at hand that it asks for,
and these tools are enough. -/
theorem Supplies.compiles_iff (hc : c.Supplies files path) (hloader : c'.loader = .files files)
    (hc' : c'.Permits) (hstore' : c'.store = some kept) :
    (∃ g, c'.compileFile files path = .ok g) ↔
      (∃ g, c.compileFile files path = .ok g) ∧
        ∀ d, c.Reaches files path d → c'.tools.Provides d := by
  obtain ⟨kept', hstore⟩ := hc.store
  have hsame : c'.loader = c.loader := hloader.trans hc.loader.symm
  have hdepth : c'.maxDepth = c.maxDepth := by rw [maxDepth, maxDepth, hsame]
  rw [exists_compileFile_iff hstore', exists_compileFile_iff hstore, hdepth]
  have hiff {source : Source} {root : Definition} (hload : files.load path none = .ok source)
      (hroot : Definition.parse source.text = .ok root) :
      (∃ g, c'.assemble (some kept) c.maxDepth (.rootedAt source.key) root = .ok g) ↔
        (∃ g, c.assemble (some kept') c.maxDepth (.rootedAt source.key) root = .ok g) ∧
          ∀ ids t, c.Way ⟨.rootedAt source.key, root⟩ ids t → c'.tools.Provides t.definition :=
    hc.permits.assembles_iff (s := ⟨.rootedAt source.key, root⟩) hc' hsame fun ids t hway =>
      hc.tools t.definition ⟨source, root, ids, t, hload, hroot, hway, rfl⟩
  constructor
  · rintro ⟨source, root, hload, hroot, h⟩
    obtain ⟨hmade, hcovers⟩ := (hiff hload hroot).1 h
    refine ⟨⟨source, root, hload, hroot, hmade⟩, ?_⟩
    rintro d ⟨source', root', ids, t, hload', hroot', hway, rfl⟩
    rw [hload] at hload'
    cases hload'
    rw [hroot] at hroot'
    cases hroot'
    exact hcovers ids t hway
  · rintro ⟨⟨source, root, hload, hroot, h⟩, hcovers⟩
    refine ⟨source, root, hload, hroot, (hiff hload hroot).2 ⟨h, fun ids t hway => ?_⟩⟩
    exact hcovers t.definition ⟨source, root, ids, t, hload, hroot, hway, rfl⟩

/-- A file that compiles has everything at hand that it asks for. -/
theorem supplies_of_compileFile (hloader : c.loader = .files files) (hc : c.Permits)
    (hstore : c.store = some kept) (h : ∃ g, c.compileFile files path = .ok g) :
    c.Supplies files path := by
  refine ⟨hloader, hc, ⟨kept, hstore⟩, ?_⟩
  obtain ⟨source, root, hload, hroot, hmade⟩ := (exists_compileFile_iff hstore).1 h
  rintro d ⟨source', root', ids, t, hload', hroot', hway, rfl⟩
  rw [hload] at hload'
  cases hload'
  rw [hroot] at hroot'
  cases hroot'
  exact hc.provides_of_assemble hway hmade

/-- Where the tools are enough, no error of a file is that a tool is not registered. -/
theorem not_isUnbound_of_compileFile (hstore : c.store = some kept)
    (hprovides : ∀ d, c.Reaches files path d → c.tools.Provides d) {errors : List CompileError}
    (h : c.compileFile files path = .error errors) : ∀ e ∈ errors, ¬ e.IsUnbound := by
  unfold compileFile compileLoaded at h
  cases hload : files.load path none with
  | error fault =>
    rw [hload] at h
    cases h
    intro e he
    cases List.mem_singleton.1 he
    rintro ⟨⟩
  | ok source =>
    rw [hload] at h
    dsimp only at h
    cases hroot : Definition.parse source.text with
    | error es =>
      have hes : errors = es.map .definition := by
        unfold compileIn at h
        rw [hroot] at h
        exact (Except.error.inj h).symm
      subst hes
      intro e he
      obtain ⟨fault, hfault, rfl⟩ := List.mem_map.1 he
      have hplain : CompileError.IsPlain (.definition fault) :=
        Definition.isPlain_of_parse hroot fault hfault
      exact hplain.not_isUnbound
    | ok root =>
      have hassembled : ∀ e ∈ (Staged.ofExcept (c.assemble (some kept) c.maxDepth
          (.rootedAt source.key) root)).errors, ¬ e.IsUnbound :=
        not_isUnbound_of_provides (s := ⟨.rootedAt source.key, root⟩) fun ids t hway =>
          hprovides t.definition ⟨source, root, ids, t, hload, hroot, hway, rfl⟩
      rw [← errors_compileIn hroot (storeFor_of_store hstore root), h] at hassembled
      exact hassembled

end Compiler

/-! ## The validator -/

namespace ToolRegistry

/-- A tool is registered exactly if it is one of those that have been, or has been before. -/
theorem has_foldl_register_iff {tools : List ToolDescription} {r : ToolRegistry} {name : String} :
    (tools.foldl register r).has name = true ↔
      (∃ t ∈ tools, t.name = name) ∨ r.has name = true := by
  induction tools generalizing r with
  | nil => simp
  | cons t rest ih =>
    have hput : (r.register t).has name = true ↔ t.name = name ∨ r.has name = true := by
      unfold has register Dict.has
      dsimp only
      rw [Dict.get?_put]
      split
      · next h => simp [h]
      · next h => simp [h]
    rw [List.foldl_cons, ih, hput, List.exists_mem_cons_iff]
    exact or_left_comm.trans or_assoc.symm

theorem has_ofList_iff {tools : List ToolDescription} {name : String} :
    (ofList tools).has name = true ↔ ∃ t ∈ tools, t.name = name := by
  rw [ofList, has_foldl_register_iff]
  exact or_iff_left (by simp [empty, has, Dict.has])

end ToolRegistry

namespace Validator

variable {files : SourceFiles} {path text binding : String} {c : Compiler}

/-- The placeholders stand for the bindings that the text declares. -/
theorem has_placeholders_iff : (placeholders text).has binding = true ↔
    ∃ root, Definition.parse text = .ok root ∧ binding ∈ root.bindings := by
  unfold placeholders
  cases hroot : Definition.parse text with
  | error es => simp [ToolRegistry.empty, ToolRegistry.has, Dict.has]
  | ok root => simp [ToolRegistry.has_ofList_iff, Definition.bindings, placeholder]

theorem Report.isValid_iff (r : Report) : r.isValid = true ↔ ∃ g, r.result = .ok g := by
  unfold isValid
  cases r.result with
  | ok g => simp [Except.isOk, Except.toBool]
  | error errors => simp [Except.isOk, Except.toBool]

/-- **A file is valid exactly if it compiles and declares all bindings itself.** Take any compiler that
has at hand what the file asks for: a store, an executor for every task, and all tools that are
declared in the file and in the definitions inside it. Without the strict option the validator calls
the file valid if and only if this compiler compiles it and the text of the file declares every binding
that is declared inside it; and if it does, no tool is reported as not registered. -/
theorem valid_iff_compiles_and_covers {own : Source} (hread : files.read? path = some own)
    (hc : c.Supplies files path) :
    ∃ report, Report.ofFile? files false path = some report ∧
      (report.isValid = true ↔
        (∃ g, c.compileFile files path = .ok g) ∧ c.Covers files path own.text) ∧
      (c.Covers files path own.text →
        ∀ errors, report.result = .error errors → ∀ e ∈ errors, ¬ e.IsUnbound) := by
  have hcovers : (∀ d, c.Reaches files path d → (placeholders own.text).Provides d) ↔
      c.Covers files path own.text :=
    forall_congr' fun d => forall_congr' fun _ => forall_congr' fun _ => forall_congr' fun _ =>
      has_placeholders_iff
  have hpermits : (compilerFor files false own.text).Permits := fun _ => ⟨_, rfl, fun _ => rfl⟩
  refine ⟨⟨path, (compilerFor files false own.text).compileFile files path⟩, ?_, ?_, ?_⟩
  · rw [Report.ofFile?, hread]
    rfl
  · rw [Report.isValid_iff, ← hcovers]
    exact hc.compiles_iff rfl hpermits rfl
  · intro h errors herrors
    refine Compiler.not_isUnbound_of_compileFile rfl (fun d hd => hcovers.2 h d ?_) herrors
    obtain ⟨source, root, ids, t, hload, hroot, hway, ht⟩ := hd
    exact ⟨source, root, ids, t, hload, hroot, hway.of_loader hc.loader, ht⟩

/-! ## A tool that only an inline definition declares -/

/-- A definition with a tool in the definition inside it. -/
def outerText (tools : String) : String :=
  "\x7bname: root, tools: " ++ tools ++ ", nodes: {s: {type: subgraph, definition: {name: in,
tools: {web: {}}, nodes: {n: {type: passthrough}}, edges: [{from: n, to: END}]}}},
edges: [{from: s, to: END}]\x7d"

/-- The file of this definition. -/
def outerFiles (tools : String) : SourceFiles where
  tree := .folder [("root.yaml", .file (.plain (outerText tools)))]
  current := "/"
  home := none

/-- A compiler for this file, with the tool. -/
def outerCompiler (tools : String) : Compiler where
  executors _ := .ok ⟨"", none⟩
  tools := .ofList [⟨"web", "", .object []⟩]
  loader := .files (outerFiles tools)
  store := some .memory
  config := none

theorem outerCompiler_supplies (tools : String)
    (h : ((outerCompiler tools).compileFile (outerFiles tools) "root.yaml").toOption.isSome = true) :
    (outerCompiler tools).Supplies (outerFiles tools) "root.yaml" ∧
      ∃ g, (outerCompiler tools).compileFile (outerFiles tools) "root.yaml" = .ok g := by
  obtain ⟨g, hg⟩ := Option.isSome_iff_exists.1 h
  have hg := eq_ok_of_toOption hg
  exact ⟨Compiler.supplies_of_compileFile rfl (fun _ => ⟨_, rfl, fun _ => rfl⟩) rfl ⟨g, hg⟩, g, hg⟩

/-- A file that declares the tool of the definition inside it is valid. -/
theorem declared_tool_is_valid :
    ∃ report, Report.ofFile? (outerFiles "{web: {}}") false "root.yaml" = some report ∧
      report.isValid = true := by
  obtain ⟨hc, hmade⟩ := outerCompiler_supplies "{web: {}}" (by decide +kernel)
  have hread : (outerFiles "{web: {}}").read? "root.yaml" =
      some ⟨"/root.yaml", outerText "{web: {}}"⟩ := by
    decide +kernel
  obtain ⟨report, hreport, hvalid, -⟩ := valid_iff_compiles_and_covers hread hc
  refine ⟨report, hreport, hvalid.2 ⟨hmade, fun d hd binding hbinding => ?_⟩⟩
  have hroot : ((Definition.parse (outerText "{web: {}}")).toOption.any fun root =>
      root.bindings.contains "web") = true := by
    decide +kernel
  obtain ⟨root, hparsed, hweb⟩ := (Option.any_eq_true _ _).1 hroot
  obtain ⟨tool, htool, rfl⟩ := ToolRegistry.has_ofList_iff.1 (hc.tools d hd binding hbinding)
  cases List.mem_singleton.1 htool
  exact ⟨root, eq_ok_of_toOption hparsed, List.contains_iff_mem.1 hweb⟩

/-- Whether an error reports a tool that is not registered in a definition inside a subgraph. -/
def isUnboundInside : CompileError → Bool
  | .subgraph _ inner => inner.any fun e => match e with
    | .definition (.unresolvedToolBinding _ _) => true
    | _ => false
  | _ => false

theorem isUnbound_of_inside {e : CompileError} (h : isUnboundInside e = true) : e.IsUnbound := by
  unfold isUnboundInside at h
  split at h
  · obtain ⟨e, he, hunbound⟩ := List.any_eq_true.1 h
    split at hunbound
    · exact .inside he (.here _ _)
    · cases hunbound
  · cases h

/-- **A tool that only the definition inside declares is reported as not registered**, though the file
compiles with this tool. -/
theorem nested_tool_is_refused :
    (outerCompiler "{}").Supplies (outerFiles "{}") "root.yaml" ∧
      (∃ g, (outerCompiler "{}").compileFile (outerFiles "{}") "root.yaml" = .ok g) ∧
      ∃ report errors, Report.ofFile? (outerFiles "{}") false "root.yaml" = some report ∧
        report.isValid = false ∧ report.result = .error errors ∧ ∃ e ∈ errors, e.IsUnbound := by
  obtain ⟨hc, hmade⟩ := outerCompiler_supplies "{}" (by decide +kernel)
  refine ⟨hc, hmade, ?_⟩
  have hreport : ((Report.ofFile? (outerFiles "{}") false "root.yaml").any fun report =>
      (Staged.ofExcept report.result).errors.any isUnboundInside) = true := by
    decide +kernel
  obtain ⟨report, hfile, hresult⟩ := (Option.any_eq_true _ _).1 hreport
  cases herrors : report.result with
  | ok g =>
    rw [herrors] at hresult
    cases hresult
  | error errors =>
    rw [herrors] at hresult
    obtain ⟨e, he, hunbound⟩ := List.any_eq_true.1 hresult
    refine ⟨report, errors, hfile, ?_, herrors, e, he, isUnbound_of_inside hunbound⟩
    rw [Report.isValid, herrors]
    rfl

end Validator

end WorkflowGraph
