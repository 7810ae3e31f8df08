import WorkflowGraph.Proofs.Compiler.Inline
import WorkflowGraph.Proofs.Compiler.Nesting
import WorkflowGraph.Proofs.Definition.Source

/-!
# References inside inline definitions

An inline definition has the key of the definition around it, with a mark and the id of its node put
behind (`Compiler.InlineWay.current?`). Relative references in it are taken from the folder of that
key, so that they mean what they would mean in the file itself exactly if the ids put no name behind
a slash (`inline_references_lead_beside_iff`): of ids, nothing else is asked.
-/

set_option autoImplicit false

namespace WorkflowGraph

/-- What the ids of nested inline definitions put behind the key of a file. -/
def inlineMark : List String → String
  | [] => ""
  | id :: ids => "#" ++ id ++ inlineMark ids

/-- Whether ids put no name behind a slash. -/
def StaysBeside (ids : List String) : Prop :=
  ∀ name ∈ (FileTree.namesOf (inlineMark ids)).tail, name = "" ∨ name = "."

instance (ids : List String) : Decidable (StaysBeside ids) :=
  inferInstanceAs (Decidable (∀ name ∈ _, name = "" ∨ name = "."))

/-- Ids without a slash put no name behind one. -/
theorem staysBeside_of_plain {ids : List String} (h : ∀ id ∈ ids, '/' ∉ id.toList) :
    StaysBeside ids := by
  have hmark : '/' ∉ (inlineMark ids).toList := by
    induction ids with
    | nil => simp [inlineMark]
    | cons id ids ih =>
      obtain ⟨hid, hrest⟩ := List.forall_mem_cons.1 h
      simp [inlineMark, hid, ih hrest]
  rw [StaysBeside, FileTree.namesOf, Text.split_of_not_mem hmark]
  simp

namespace Compiler

variable {c : Compiler} {ids : List String} {s t : Site}

/-- Whether compilation goes from a definition to another one through inline definitions in the
subgraphs with some ids. -/
inductive InlineWay (c : Compiler) : Site → List String → Site → Prop where
  | here (s : Site) : InlineWay c s [] s
  | inside {stack entered : SourceStack} {d child : Definition} {n node : NodeDecl}
      {spec : SubgraphSpec} {key : String} {ids : List String} {t : Site} (hvalid : d.faults = [])
      (hn : n ∈ d.nodes) (hsubgraph : NodeDecl.subgraph? n.id n.options n.kind = some (node, spec))
      (hinline : spec.graph = none)
      (hsource : c.subgraphSource (c.surroundings stack d) node spec = .ok (key, .ok child))
      (hentered : stack.enter key = .ok entered) (hrest : InlineWay c ⟨entered, child⟩ ids t) :
      InlineWay c ⟨stack, d⟩ (node.id :: ids) t

/-- The key of an inline definition is made from the one around it and the id of its node. -/
theorem key_of_inline {env : Surroundings} {node : NodeDecl} {spec : SubgraphSpec} {key : String}
    {parsed : Except (List DefinitionError) Definition} (hinline : spec.graph = none)
    (h : c.subgraphSource env node spec = .ok (key, parsed)) :
    key = env.stack.current?.getD env.definition.name ++ "#" ++ node.id := by
  unfold subgraphSource at h
  rw [hinline] at h
  split at h
  · next heq => cases heq
  · simp only [Except.ok.injEq, Prod.mk.injEq] at h
    exact h.1.symm
  · cases h

/-- **Nested inline definitions put their ids behind the key of the file**, by induction on the
way. -/
theorem InlineWay.current? (h : c.InlineWay s ids t) {key : String}
    (hkey : s.stack.current? = some key) : t.stack.current? = some (key ++ inlineMark ids) := by
  induction h generalizing key with
  | here s =>
    rw [hkey]
    simp [inlineMark]
  | @inside stack entered d child n node spec inner ids t _ _ _ hinline hsource hentered _ ih =>
    have hinner : inner = key ++ "#" ++ node.id := by
      have hcurrent : (c.surroundings stack d).stack.current? = some key := hkey
      rw [key_of_inline hinline hsource, hcurrent]
      rfl
    rw [ih (current?_enter hentered), hinner, inlineMark]
    simp [String.append_assoc]

/-- A subgraph that refers to another source is given what its reference leads to. -/
theorem subgraphSource_congr {env env' : Surroundings} {node : NodeDecl} {spec : SubgraphSpec}
    {reference : String} (hgraph : spec.graph = some reference)
    (h : c.loader.load reference env.stack.current? = c.loader.load reference env'.stack.current?) :
    c.subgraphSource env node spec = c.subgraphSource env' node spec := by
  unfold subgraphSource
  rw [hgraph]
  dsimp only
  rw [h]

end Compiler

/-- **Relative references inside inline definitions are taken from the folder of their file exactly
if the ids on the way put no name behind a slash.** A file is compiled below its own key. A relative
reference in it means what has its name in the folder of the file. Inside nested inline definitions it
means the same for ids that stay beside the file, whatever else they are made of, and for no others;
where it does, a subgraph is given the source that it would be given in the file itself. -/
theorem inline_references_lead_beside_iff {c : Compiler} {files : SourceFiles} {path : String}
    {source : Source} {d : Definition} {ids : List String} {t : Compiler.Site}
    (hloader : c.loader = .files files) (hsource : files.load path none = .ok source)
    (hway : c.InlineWay ⟨.rootedAt source.key, d⟩ ids t) :
    c.compileFile files path = c.compileIn (.rootedAt source.key) source.text ∧
    ∃ folder name, source.key = folder ++ "/" ++ name ∧ '/' ∉ name.toList ∧
      ∀ reference, files.Relative reference →
        files.pathOf reference (some source.key) = folder ++ "/" ++ reference ∧
        (files.pathOf reference t.stack.current? = folder ++ "/" ++ reference ↔
          StaysBeside ids) ∧
        (StaysBeside ids → ∀ node spec, spec.graph = some reference →
          c.subgraphSource (c.surroundings t.stack t.definition) node spec =
            c.subgraphSource (c.surroundings (.rootedAt source.key) d) node spec) := by
  have hcompile : c.compileFile files path = c.compileIn (.rootedAt source.key) source.text := by
    rw [Compiler.compileFile, hsource, Compiler.compileLoaded]
  obtain ⟨front, last, hkey, hproper⟩ := SourceFiles.exists_place_of_load hsource
  have hparts : source.key = FileTree.slashed front ++ "/" ++ last := by
    rw [hkey, FileTree.slashed_eq (by simp)]
    simp [String.append_assoc]
  refine ⟨hcompile, FileTree.slashed front, last, hparts, (hproper last (by simp)).1, ?_⟩
  intro reference hrel
  have hcurrent : t.stack.current? = some (source.key ++ inlineMark ids) := hway.current? rfl
  have hbeside := SourceFiles.pathOf_key hrel hproper
  have hiff : files.pathOf reference (some (source.key ++ inlineMark ids)) =
      FileTree.slashed front ++ "/" ++ reference ↔ StaysBeside ids := by
    rw [hkey]
    exact SourceFiles.pathOf_append_eq_iff hrel hproper
  rw [← hkey] at hbeside
  rw [← hcurrent] at hiff
  refine ⟨hbeside, hiff, fun hids node spec hgraph => ?_⟩
  have hpath := (hiff.2 hids).trans hbeside.symm
  have hroot : (SourceStack.rootedAt source.key).current? = some source.key := rfl
  apply Compiler.subgraphSource_congr hgraph
  change c.loader.load reference t.stack.current? =
    c.loader.load reference (SourceStack.rootedAt source.key).current?
  rw [hloader, hroot, SourceLoader.load, SourceLoader.load, SourceFiles.load, SourceFiles.load,
    hpath]

/-! ## A file with an inline definition that refers to another file -/

/-- A definition with an inline definition in the node with an id, which refers to a file. -/
def flowText (id : String) : String :=
  "\x7bname: flow, nodes: \x7b" ++ id ++ ": {type: subgraph, definition: {name: in, nodes: {n:
{type: subgraph, graph: child.yaml}}, edges: [{from: n, to: END}]}}\x7d, edges: [\x7bfrom: " ++ id ++
    ", to: END\x7d]\x7d"

/-- The file of this definition, with the one that it refers to beside it. -/
def flowFiles (id : String) : SourceFiles where
  tree := .folder [("flows", .folder
    [("child.yaml", .file (.plain
        "{name: child, nodes: {n: {type: passthrough}}, edges: [{from: n, to: END}]}")),
      ("root.yaml", .file (.plain (flowText id)))])]
  current := "/flows"
  home := none

/-- A compiler that loads these files. -/
def flowCompiler (id : String) : Compiler :=
  { bareCompiler with loader := .files (flowFiles id) }

/-- The key of the file, with which its definition is compiled. -/
def flowStack : SourceStack := .rootedAt "/flows/root.yaml"

/-- Whether compilation goes on from a definition to an inline one in the node with an id. -/
def Compiler.hasInline (c : Compiler) (stack : SourceStack) (d : Definition) (id : String) : Bool :=
  d.faults.isEmpty && d.nodes.any fun n =>
    (NodeDecl.subgraph? n.id n.options n.kind).any fun (node, spec) =>
      node.id == id && spec.graph.isNone &&
        (c.subgraphSource (c.surroundings stack d) node spec).toOption.any fun (key, parsed) =>
          parsed.toOption.isSome && (stack.enter key).toOption.isSome

theorem Compiler.exists_inlineWay {c : Compiler} {stack : SourceStack} {d : Definition}
    {id : String} (h : c.hasInline stack d id = true) : ∃ t, c.InlineWay ⟨stack, d⟩ [id] t := by
  simp only [hasInline, Bool.and_eq_true, List.isEmpty_iff, List.any_eq_true] at h
  obtain ⟨hvalid, n, hn, hnested⟩ := h
  obtain ⟨⟨node, spec⟩, hsubgraph, hnode⟩ := (Option.any_eq_true _ _).1 hnested
  simp only [Bool.and_eq_true, beq_iff_eq, Option.isNone_iff_eq_none] at hnode
  obtain ⟨⟨rfl, hinline⟩, hsource⟩ := hnode
  obtain ⟨⟨key, parsed⟩, hsource, hchild⟩ := (Option.any_eq_true _ _).1 hsource
  simp only [Bool.and_eq_true, Option.isSome_iff_exists] at hchild
  obtain ⟨⟨child, hread⟩, entered, hentered⟩ := hchild
  obtain rfl := eq_ok_of_toOption hread
  exact ⟨_, .inside hvalid hn hsubgraph hinline (eq_ok_of_toOption hsource)
    (eq_ok_of_toOption hentered) (.here _)⟩

/-- The definition in the file is read, and leads to the inline one. -/
theorem exists_flow (id : String)
    (h : ((Definition.parse (flowText id)).toOption.any fun d =>
      (flowCompiler id).hasInline flowStack d id) = true) :
    ∃ d t, Definition.parse (flowText id) = .ok d ∧
      (flowCompiler id).InlineWay ⟨flowStack, d⟩ [id] t := by
  obtain ⟨d, hd, hinline⟩ := (Option.any_eq_true _ _).1 h
  obtain ⟨t, hway⟩ := Compiler.exists_inlineWay hinline
  exact ⟨d, t, eq_ok_of_toOption hd, hway⟩

/-- The reference in the inline definition leads to the file beside the one around it. -/
theorem outer_flow_finds_its_child :
    ∃ d t, Definition.parse (flowText "outer") = .ok d ∧
      (flowCompiler "outer").InlineWay ⟨flowStack, d⟩ ["outer"] t ∧
      (flowFiles "outer").pathOf "child.yaml" t.stack.current? = "/flows/child.yaml" := by
  obtain ⟨d, t, hd, hway⟩ := exists_flow "outer" (by decide +kernel)
  have hload : (flowFiles "outer").load "root.yaml" none =
      .ok ⟨"/flows/root.yaml", flowText "outer"⟩ := by
    decide +kernel
  obtain ⟨-, folder, name, -, -, hleads⟩ := inline_references_lead_beside_iff rfl hload hway
  obtain ⟨hfile, hinline, -⟩ := hleads "child.yaml" ⟨by decide +kernel, .inr rfl⟩
  refine ⟨d, t, hd, hway, ?_⟩
  rw [hinline.2 (staysBeside_of_plain (by decide)), ← hfile]
  decide +kernel

/-- **An id with a slash leads elsewhere.** The definition is valid, but the reference in the inline
one is looked for in a folder with the name of the file, and the definition is refused. -/
theorem sloping_flow_loses_its_child :
    ∃ d t, Definition.parse (flowText "a/b") = .ok d ∧
      (flowCompiler "a/b").InlineWay ⟨flowStack, d⟩ ["a/b"] t ∧
      (flowFiles "a/b").pathOf "child.yaml" (some "/flows/root.yaml") = "/flows/child.yaml" ∧
      (flowFiles "a/b").pathOf "child.yaml" t.stack.current? =
        "/flows/root.yaml#a/child.yaml" ∧
      ((flowCompiler "a/b").compileFile (flowFiles "a/b") "root.yaml").toOption.isNone = true := by
  obtain ⟨d, t, hd, hway⟩ := exists_flow "a/b" (by decide +kernel)
  refine ⟨d, t, hd, hway, by decide +kernel, ?_, by decide +kernel⟩
  rw [hway.current? rfl]
  decide +kernel

end WorkflowGraph
