import WorkflowGraph.Proofs.Compiler.Uninterrupted
import WorkflowGraph.Proofs.Definition.Ids
import WorkflowGraph.Proofs.Text

/-!
# Diagrams of compiled graphs

A diagram is a picture of a graph as far as the graph can be read back from it: line by line, and
then vertex by vertex and edge by edge. The reader (`Diagram.read?`) knows the brackets, arrows and
quotes of a diagram, and nothing of the graph. What it reads are names, and from these it only takes
which ends of edges are which vertices: names are made from ids by giving up characters, so that the
ids themselves stand in the labels.

Labels have no quotes, so that a line is cut apart at its quotes into what was put together, and a
name ends where an arrow or a bracket begins (`Diagram.readItem?_nodeLine`,
`Diagram.readItem?_edgeLine`). What labels may have is a line break, which is taken over as it
stands. And two ids may have one name. Where neither is so, the diagram is a picture of the graph,
and only there (`Diagram.faithful_iff`). A marker never has the name of a node, since it is the only
id with its name (`Diagram.eq_of_identifier_eq`).
-/

set_option autoImplicit false

namespace WorkflowGraph

namespace Diagram

/-! ## What is drawn -/

/-- The vertices of a diagram: the markers that edges mention, and the nodes with their kinds. -/
def vertices (nodes : List NodeDecl) (edges : List EdgeView) : List (String × Option NodeKind) :=
  (markers edges).map (fun m => (m, none)) ++ nodes.map fun n => (n.id, some n.kind)

/-- The structure of a graph: the shape and the label of each vertex, and for each edge the
positions of the two vertices that it joins, and its label. -/
structure Sketch where
  vertices : List ((String × String) × String)
  edges : List (Nat × Nat × Option String)
  deriving DecidableEq, Repr

/-- The structure of nodes and edges. -/
def sketch (nodes : List NodeDecl) (edges : List EdgeView) : Sketch :=
  let ids := (vertices nodes edges).map Prod.fst
  ⟨(vertices nodes edges).map fun v => (brackets v.2, label v.1),
    edges.map fun e => (ids.idxOf e.source, ids.idxOf e.target, e.label.map label)⟩

/-! ## Reading -/

/-- What one line draws. -/
inductive Item where
  | vertex (name : String) (shape : String × String) (text : String)
  | edge (source target : String) (text : Option String)
  deriving DecidableEq, Repr

/-- What the line of a vertex draws. -/
def Item.ofVertex (v : String × Option NodeKind) : Item :=
  .vertex (identifier v.1) (brackets v.2) (label v.1)

/-- What the line of an edge draws. -/
def Item.ofEdge (e : EdgeView) : Item :=
  .edge (identifier e.source) (identifier e.target) (e.label.map label)

/-- Whether a character ends a name: the blank before an arrow, or a bracket. -/
def endsName (c : Char) : Bool := c == ' ' || c == '[' || c == '(' || c == '\x7b'

/-- A name, and what follows it. -/
def readName (s : String) : String × String :=
  (String.ofList (s.toList.takeWhile fun c => !endsName c),
    String.ofList (s.toList.dropWhile fun c => !endsName c))

/-- Read what follows the name at the start of a line. -/
def readRest? (name more : String) : Option Item :=
  match Text.split '"' more with
  | [before, text, after] =>
    if before = " -. " then
      (Text.after? " .-> " after).map fun target => .edge name target (some text)
    else some (.vertex name (before ++ "\"", "\"" ++ after) text)
  | _ => (Text.after? " --> " more).map fun target => .edge name target none

/-- Read a line. -/
def readItem? (line : String) : Option Item :=
  (Text.after? "    " line).bind fun rest => readRest? (readName rest).1 (readName rest).2

/-- The name of a vertex with its shape and label. -/
def Item.vertex? : Item → Option (String × (String × String) × String)
  | .vertex name shape text => some (name, shape, text)
  | .edge _ _ _ => none

/-- The two ends of an edge with its label. -/
def Item.edge? : Item → Option (String × String × Option String)
  | .edge source target text => some (source, target, text)
  | .vertex _ _ _ => none

/-- The structure that lines draw. The ends of edges are looked up by name among the vertices. -/
def Sketch.ofItems (items : List Item) : Sketch :=
  let names := (items.filterMap Item.vertex?).map Prod.fst
  ⟨(items.filterMap Item.vertex?).map Prod.snd,
    (items.filterMap Item.edge?).map fun e => (names.idxOf e.1, names.idxOf e.2.1, e.2.2)⟩

/-- Read a diagram. -/
def read? (text : String) : Option Sketch :=
  match Text.split '\n' text with
  | header :: lines =>
    if header = "flowchart TD" then (lines.mapM readItem?).map Sketch.ofItems else none
  | [] => none

/-- Whether a text is a faithful picture of nodes and edges: it has the header, one line for each
vertex and one for each edge, no two vertices have one name, and what is read from it is the
structure. -/
structure Faithful (text : String) (nodes : List NodeDecl) (edges : List EdgeView) : Prop where
  lines : Text.split '\n' text = "flowchart TD" ::
    ((vertices nodes edges).map (fun v => nodeLine v.1 v.2) ++ edges.map edgeLine)
  apart : ((vertices nodes edges).map fun v => identifier v.1).Nodup
  read : read? text = some (sketch nodes edges)

/-- Whether nodes and edges can be drawn: there is no line break in an id or a label, and the ids
of no two nodes have one name. -/
structure Drawable (nodes : List NodeDecl) (edges : List EdgeView) : Prop where
  ids : ∀ n ∈ nodes, '\n' ∉ n.id.toList
  labels : ∀ e ∈ edges, ∀ text, e.label = some text → '\n' ∉ text.toList
  apart : (nodes.map fun n => identifier n.id).Nodup

instance (nodes : List NodeDecl) (edges : List EdgeView) : Decidable (Drawable nodes edges) :=
  decidable_of_iff ((∀ n ∈ nodes, '\n' ∉ n.id.toList) ∧
      (∀ e ∈ edges, ∀ text ∈ e.label, '\n' ∉ text.toList) ∧
      (nodes.map fun n => identifier n.id).Nodup)
    ⟨fun h => ⟨h.1, h.2.1, h.2.2⟩, fun h => ⟨h.ids, h.labels, h.apart⟩⟩

/-! ## Names and labels -/

theorem toList_identifier (id : String) : (identifier id).toList =
    id.toList.map fun c => if Text.isAlphanumeric c || c == '_' then c else '_' :=
  String.toList_map

/-- A name has no characters but those that are kept. -/
theorem not_mem_identifier (id : String) {c : Char}
    (h : (Text.isAlphanumeric c || c == '_') = false) : c ∉ (identifier id).toList := by
  rw [toList_identifier, List.mem_map]
  rintro ⟨c', -, rfl⟩
  split at h
  · next haccepted => exact Bool.false_ne_true (h.symm.trans haccepted)
  · revert h
    decide

theorem endsName_of_mem_identifier {id : String} {c : Char} (h : c ∈ (identifier id).toList) :
    endsName c = false := by
  by_contra hends
  simp only [endsName, Bool.not_eq_false, Bool.or_eq_true, beq_iff_eq] at hends
  rcases hends with ((rfl | rfl) | rfl) | rfl <;> exact not_mem_identifier id (by decide) h

/-- A name without underscores belongs to no other id: no character of the id was given up. -/
theorem eq_of_identifier_eq {id name : String} (hname : '_' ∉ name.toList)
    (h : identifier id = name) : id = name := by
  subst h
  rw [toList_identifier] at hname
  have hkept : ∀ c ∈ id.toList, (if Text.isAlphanumeric c || c == '_' then c else '_') = c := by
    intro c hc
    split
    · rfl
    · next hnot =>
      refine absurd (List.mem_map.2 ⟨c, hc, ?_⟩) hname
      exact if_neg hnot
  rw [← String.toList_inj, toList_identifier, List.map_congr_left hkept, List.map_id']

/-- A marker is its own name, which no other id has, and is not broken. -/
theorem spec_of_isMarker {m : String} (h : isMarker m = true) :
    identifier m = m ∧ '_' ∉ m.toList ∧ '\n' ∉ m.toList := by
  unfold isMarker at h
  rw [Bool.or_eq_true, beq_iff_eq, beq_iff_eq] at h
  rw [← String.toList_inj, toList_identifier]
  rcases h with rfl | rfl <;> decide

theorem mem_label {text : String} {c : Char} : c ∈ (label text).toList ↔
    ∃ c' ∈ text.toList, c ∈ (if c' == '"' then "#quot;" else String.singleton c').toList := by
  rw [label, String.toList_join, List.flatMap_map, List.mem_flatMap]

theorem quote_not_mem_label (text : String) : '"' ∉ (label text).toList := by
  rw [mem_label]
  rintro ⟨c, -, h⟩
  split at h
  · revert h
    decide
  · next hne =>
    rw [String.toList_singleton, List.mem_singleton] at h
    exact hne (beq_iff_eq.2 h.symm)

theorem newline_mem_label {text : String} : '\n' ∈ (label text).toList ↔ '\n' ∈ text.toList := by
  rw [mem_label]
  refine ⟨fun ⟨c, hc, h⟩ => ?_, fun h => ⟨'\n', h, by decide⟩⟩
  split at h
  · exact absurd h (by decide)
  · rw [String.toList_singleton, List.mem_singleton] at h
    exact h ▸ hc

/-! ## Lines -/

/-- What stands outside the quotes of a vertex, for the eight shapes. -/
def shapes : List (String × String) :=
  [("[", "]"), ("[[", "]]"), ("\x7b", "\x7d"), ("[(", ")]"), ("[/", "\\]"),
    ("\x7b\x7b", "\x7d\x7d"), ("(", ")"), ("([", "])")]

theorem exists_shape (kind : Option NodeKind) :
    ∃ p ∈ shapes, brackets kind = (p.1 ++ "\"", "\"" ++ p.2) := by
  match kind with
  | some (.transform _) => exact ⟨("[", "]"), by decide, rfl⟩
  | some (.agent _) => exact ⟨("[[", "]]"), by decide, rfl⟩
  | some (.router _) => exact ⟨("\x7b", "\x7d"), by decide, rfl⟩
  | some (.subgraph _) => exact ⟨("[(", ")]"), by decide, rfl⟩
  | some (.map _ _ _) => exact ⟨("[/", "\\]"), by decide, rfl⟩
  | some (.interrupt _) => exact ⟨("\x7b\x7b", "\x7d\x7d"), by decide, rfl⟩
  | some (.passthrough _) => exact ⟨("(", ")"), by decide, rfl⟩
  | none => exact ⟨("([", "])"), by decide, rfl⟩

/-- A shape has no quotes and no line breaks, ends a name, and is no arrow. -/
theorem spec_of_mem_shapes : ∀ p ∈ shapes, ('"' ∉ p.1.toList ∧ '"' ∉ p.2.toList) ∧
    ('\n' ∉ p.1.toList ∧ '\n' ∉ p.2.toList) ∧ p.1 ≠ " -. " ∧ p.1.toList.head?.any endsName := by
  decide

/-- A name ends where something begins that ends a name. -/
theorem readName_append {name more : String} {c : Char} {rest : List Char}
    (hname : ∀ c ∈ name.toList, endsName c = false) (hmore : more.toList = c :: rest)
    (hc : endsName c = true) : readName (name ++ more) = (name, more) := by
  have hinside : ∀ c ∈ name.toList, (!endsName c) = true := fun c hmem => by rw [hname c hmem]; rfl
  unfold readName
  rw [String.toList_append, List.takeWhile_append_of_pos hinside,
    List.dropWhile_append_of_pos hinside, hmore, List.takeWhile_cons_of_neg (by simp [hc]),
    List.dropWhile_cons_of_neg (by simp [hc]), List.append_nil, String.ofList_toList, ← hmore,
    String.ofList_toList]

/-- What is read from a line that begins with the name of an id. -/
theorem readItem?_of_more (id : String) {more : String} {c : Char} {rest : List Char}
    (hmore : more.toList = c :: rest) (hc : endsName c = true) :
    readItem? ("    " ++ (identifier id ++ more)) = readRest? (identifier id) more := by
  rw [readItem?, Text.after?_eq_some_iff.2 rfl, Option.bind_some,
    readName_append (fun _ => endsName_of_mem_identifier) hmore hc]

/-- A line is cut apart at the two quotes around a label. -/
theorem split_quotes {before after : String} (text : String) (hbefore : '"' ∉ before.toList)
    (hafter : '"' ∉ after.toList) :
    Text.split '"' (before ++ "\"" ++ (label text ++ "\"" ++ after)) =
      [before, label text, after] := by
  have hquote : "\"" = String.singleton '"' := rfl
  rw [hquote, Text.split_append, Text.split_append, Text.split_of_not_mem hbefore,
    Text.split_of_not_mem (quote_not_mem_label text), Text.split_of_not_mem hafter]
  rfl

/-- From the line of a vertex its name, its shape and its label are read. -/
theorem readItem?_nodeLine (v : String × Option NodeKind) :
    readItem? (nodeLine v.1 v.2) = some (.ofVertex v) := by
  obtain ⟨id, kind⟩ := v
  obtain ⟨⟨before, after⟩, hmem, hshape⟩ := exists_shape kind
  obtain ⟨⟨hbefore, hafter⟩, -, hsolid, hends⟩ := spec_of_mem_shapes _ hmem
  obtain ⟨c, hc, hends⟩ := (Option.any_eq_true _ _).1 hends
  obtain ⟨rest, hlist⟩ := List.head?_eq_some_iff.1 hc
  have hline : nodeLine id kind =
      "    " ++ (identifier id ++ (before ++ "\"" ++ (label id ++ "\"" ++ after))) := by
    simp only [nodeLine, hshape, String.append_assoc]
  have hmore : (before ++ "\"" ++ (label id ++ "\"" ++ after)).toList =
      c :: (rest ++ '"' :: (label id ++ "\"" ++ after).toList) := by
    simp [hlist]
  rw [hline, readItem?_of_more id hmore hends, readRest?, split_quotes id hbefore hafter,
    Item.ofVertex, hshape]
  exact if_neg hsolid

/-- From the line of an edge the names of its two ends and its label are read. -/
theorem readItem?_edgeLine (e : EdgeView) : readItem? (edgeLine e) = some (.ofEdge e) := by
  unfold Item.ofEdge
  have hunquoted {arrow : String} (h : '"' ∉ arrow.toList) :
      '"' ∉ (arrow ++ identifier e.target).toList := by
    rw [String.toList_append, List.mem_append, not_or]
    exact ⟨h, not_mem_identifier e.target (by decide)⟩
  cases hlabel : e.label with
  | none =>
    have hline : edgeLine e =
        "    " ++ (identifier e.source ++ (" --> " ++ identifier e.target)) := by
      simp only [edgeLine, hlabel, String.append_assoc]
    rw [hline, readItem?_of_more e.source String.toList_append rfl, readRest?,
      Text.split_of_not_mem (hunquoted (by decide)), Text.after?_eq_some_iff.2 rfl]
    rfl
  | some text =>
    have hline : edgeLine e = "    " ++ (identifier e.source ++
        (" -. " ++ "\"" ++ (label text ++ "\"" ++ (" .-> " ++ identifier e.target)))) := by
      simp only [edgeLine, hlabel, String.append_assoc]
      rfl
    rw [hline, readItem?_of_more e.source String.toList_append rfl, readRest?,
      split_quotes text (by decide) (hunquoted (by decide))]
    dsimp only
    rw [if_pos rfl, Text.after?_eq_some_iff.2 rfl]
    rfl

/-- A line of a vertex is broken only where its id is. -/
theorem newline_mem_nodeLine {id : String} {kind : Option NodeKind} :
    '\n' ∈ (nodeLine id kind).toList ↔ '\n' ∈ id.toList := by
  obtain ⟨⟨before, after⟩, hmem, hshape⟩ := exists_shape kind
  obtain ⟨-, ⟨hbefore, hafter⟩, -⟩ := spec_of_mem_shapes _ hmem
  have hname := not_mem_identifier id (c := '\n') (by decide)
  have hstart : '\n' ∉ "    ".toList := by decide
  have hquote : '\n' ∉ "\"".toList := by decide
  unfold nodeLine
  rw [hshape]
  simp only [String.toList_append, List.mem_append, hbefore, hafter, hname, hstart, hquote,
    newline_mem_label, false_or, or_false]

/-- A line of an edge is broken only where its label is. -/
theorem newline_mem_edgeLine {e : EdgeView} :
    '\n' ∈ (edgeLine e).toList ↔ ∃ text, e.label = some text ∧ '\n' ∈ text.toList := by
  have hsource := not_mem_identifier e.source (c := '\n') (by decide)
  have htarget := not_mem_identifier e.target (c := '\n') (by decide)
  cases hlabel : e.label with
  | none => simp [edgeLine, hlabel, hsource, htarget]
  | some text => simp [edgeLine, hlabel, hsource, htarget, newline_mem_label]

/-! ## The whole diagram -/

section Whole

variable {nodes : List NodeDecl} {edges : List EdgeView}

theorem mem_markers {m : String} : m ∈ markers edges ↔
    isMarker m = true ∧ ∃ e ∈ edges, e.source = m ∨ e.target = m := by
  have hmarker : m ∈ [endMarker, startMarker] ↔ isMarker m = true := by
    simp [isMarker, or_comm]
  simp only [markers, List.mem_filter, hmarker, List.any_eq_true, Bool.or_eq_true, beq_iff_eq]

theorem nodup_markers (edges : List EdgeView) : (markers edges).Nodup :=
  List.Nodup.filter _ (by decide)

theorem map_fst_vertices (nodes : List NodeDecl) (edges : List EdgeView) :
    (vertices nodes edges).map Prod.fst = markers edges ++ nodes.map NodeDecl.id := by
  simp [vertices, Function.comp_def]

theorem map_identifier_vertices (nodes : List NodeDecl) (edges : List EdgeView) :
    (vertices nodes edges).map (fun v => identifier v.1) =
      (markers edges).map identifier ++ nodes.map fun n => identifier n.id := by
  simp [vertices, Function.comp_def]

/-- Without a state, the lines of a diagram are the header, the vertices and the edges. -/
theorem render_eq (nodes : List NodeDecl) (edges : List EdgeView) :
    render nodes edges none = String.intercalate (String.singleton '\n') ("flowchart TD" ::
      ((vertices nodes edges).map (fun v => nodeLine v.1 v.2) ++ edges.map edgeLine)) := by
  have hmarked : markedLine none = fun n => nodeLine n.id (some n.kind) := rfl
  rw [render, hmarked, vertices]
  simp [Function.comp_def]

/-- The lines stay apart if and only if no id and no label is broken. -/
theorem split_render_iff : Text.split '\n' (render nodes edges none) = "flowchart TD" ::
      ((vertices nodes edges).map (fun v => nodeLine v.1 v.2) ++ edges.map edgeLine) ↔
    (∀ n ∈ nodes, '\n' ∉ n.id.toList) ∧
      ∀ e ∈ edges, ∀ text, e.label = some text → '\n' ∉ text.toList := by
  constructor
  · intro hlines
    have hunbroken : ∀ line ∈ (vertices nodes edges).map (fun v => nodeLine v.1 v.2) ++
        edges.map edgeLine, '\n' ∉ line.toList := by
      intro line hline
      have hpart : line ∈ Text.split '\n' (render nodes edges none) := by
        rw [hlines]
        exact List.mem_cons_of_mem _ hline
      exact Text.not_mem_of_mem_split line hpart
    constructor
    · intro n hn hid
      have hvertex : (n.id, some n.kind) ∈ vertices nodes edges :=
        List.mem_append_right _ (List.mem_map_of_mem hn)
      exact hunbroken (nodeLine n.id (some n.kind))
        (List.mem_append_left _ (List.mem_map.2 ⟨_, hvertex, rfl⟩)) (newline_mem_nodeLine.2 hid)
    · intro e he text htext hmem
      exact hunbroken (edgeLine e) (List.mem_append_right _ (List.mem_map_of_mem he))
        (newline_mem_edgeLine.2 ⟨text, htext, hmem⟩)
  · rintro ⟨hids, hlabels⟩
    rw [render_eq]
    refine Text.split_intercalate (List.cons_ne_nil _ _) fun line hline => ?_
    rcases List.mem_cons.1 hline with rfl | hline
    · decide
    rcases List.mem_append.1 hline with hvertex | hedge
    · obtain ⟨v, hv, rfl⟩ := List.mem_map.1 hvertex
      rw [newline_mem_nodeLine]
      rcases List.mem_append.1 hv with hmarker | hnode
      · obtain ⟨m, hm, rfl⟩ := List.mem_map.1 hmarker
        exact (spec_of_isMarker (mem_markers.1 hm).1).2.2
      · obtain ⟨n, hn, rfl⟩ := List.mem_map.1 hnode
        exact hids n hn
    · obtain ⟨e, he, rfl⟩ := List.mem_map.1 hedge
      rw [newline_mem_edgeLine]
      rintro ⟨text, htext, hmem⟩
      exact hlabels e he text htext hmem

/-- The names of the vertices are apart if and only if those of the nodes are: no node has the name
of a marker. -/
theorem nodup_names_iff (hfree : ∀ n ∈ nodes, isMarker n.id = false) :
    ((vertices nodes edges).map fun v => identifier v.1).Nodup ↔
      (nodes.map fun n => identifier n.id).Nodup := by
  rw [map_identifier_vertices, List.nodup_append]
  refine ⟨fun h => h.2.1, fun h => ⟨?_, h, ?_⟩⟩
  · have hkept : ∀ m ∈ markers edges, identifier m = m := fun m hm =>
      (spec_of_isMarker (mem_markers.1 hm).1).1
    rw [List.map_congr_left hkept, List.map_id']
    exact nodup_markers edges
  · intro name hname other hother heq
    obtain ⟨m, hm, rfl⟩ := List.mem_map.1 hname
    obtain ⟨n, hn, rfl⟩ := List.mem_map.1 hother
    have hmarker := (mem_markers.1 hm).1
    obtain ⟨hname, hplain, -⟩ := spec_of_isMarker hmarker
    have hid : n.id = m := eq_of_identifier_eq hplain (heq.symm.trans hname)
    have hnot := hfree n hn
    rw [hid, hmarker] at hnot
    cases hnot

/-- A position among names is the position among the ids, if no two ids have one name. -/
theorem idxOf_map {ids : List String} {f : String → String} (h : (ids.map f).Nodup) {id : String}
    (hid : id ∈ ids) : (ids.map f).idxOf (f id) = ids.idxOf id := by
  have hlt : ids.idxOf id < (ids.map f).length := by
    rw [List.length_map]
    exact List.idxOf_lt_length_iff.2 hid
  have hget : (ids.map f)[ids.idxOf id] = f id := by simp
  rw [← hget, h.idxOf_getElem]

section Joined

-- every edge joins two vertices
variable (hends : ∀ e ∈ edges, e.source ∈ (vertices nodes edges).map Prod.fst ∧
    e.target ∈ (vertices nodes edges).map Prod.fst)

include hends

/-- What is read from the lines of a diagram is the structure, if the names of the vertices are
apart. -/
theorem ofItems_eq
    (hapart : ((vertices nodes edges).map fun v => identifier v.1).Nodup) :
    Sketch.ofItems ((vertices nodes edges).map Item.ofVertex ++ edges.map Item.ofEdge) =
      sketch nodes edges := by
  have hvertices : ((vertices nodes edges).map Item.ofVertex ++
        edges.map Item.ofEdge).filterMap Item.vertex? =
      (vertices nodes edges).map fun v => (identifier v.1, brackets v.2, label v.1) := by
    simp [List.filterMap_append, List.filterMap_map, Function.comp_def, Item.vertex?, Item.ofVertex,
      Item.ofEdge]
  have hedges : ((vertices nodes edges).map Item.ofVertex ++
        edges.map Item.ofEdge).filterMap Item.edge? =
      edges.map fun e => (identifier e.source, identifier e.target, e.label.map label) := by
    simp [List.filterMap_append, List.filterMap_map, Function.comp_def, Item.edge?, Item.ofVertex,
      Item.ofEdge]
  rw [Sketch.ofItems, hvertices, hedges, sketch]
  have hnames : ((vertices nodes edges).map fun v =>
      (identifier v.1, brackets v.2, label v.1)).map Prod.fst =
      ((vertices nodes edges).map Prod.fst).map identifier := by
    simp [Function.comp_def]
  have hnodup : (((vertices nodes edges).map Prod.fst).map identifier).Nodup := by
    simpa [Function.comp_def] using hapart
  rw [hnames, List.map_map, List.map_map]
  refine congrArg _ (List.map_congr_left fun e he => ?_)
  obtain ⟨hsource, htarget⟩ := hends e he
  dsimp only [Function.comp_apply]
  rw [idxOf_map hnodup hsource, idxOf_map hnodup htarget]

theorem read?_render
    (hapart : ((vertices nodes edges).map fun v => identifier v.1).Nodup)
    (hlines : Text.split '\n' (render nodes edges none) = "flowchart TD" ::
      ((vertices nodes edges).map (fun v => nodeLine v.1 v.2) ++ edges.map edgeLine)) :
    read? (render nodes edges none) = some (sketch nodes edges) := by
  have hvertices : (readItem? ∘ fun v : String × Option NodeKind => nodeLine v.1 v.2) =
      fun v => pure (.ofVertex v) :=
    funext readItem?_nodeLine
  have hedges : readItem? ∘ edgeLine = fun e => pure (.ofEdge e) := funext readItem?_edgeLine
  rw [read?, hlines]
  dsimp only
  rw [if_pos rfl, List.mapM_append, List.mapM_map, List.mapM_map, hvertices, hedges,
    List.mapM_pure, List.mapM_pure, pure_bind, pure_bind]
  exact congrArg some (ofItems_eq hends hapart)

/-- **A diagram is a faithful picture of what can be drawn**, and of nothing else. -/
theorem faithful_iff (hfree : ∀ n ∈ nodes, isMarker n.id = false) :
    Faithful (render nodes edges none) nodes edges ↔ Drawable nodes edges := by
  constructor
  · intro h
    obtain ⟨hids, hlabels⟩ := split_render_iff.1 h.lines
    exact ⟨hids, hlabels, (nodup_names_iff hfree).1 h.apart⟩
  · intro h
    have hlines := split_render_iff.2 ⟨h.ids, h.labels⟩
    have hapart : ((vertices nodes edges).map fun v => identifier v.1).Nodup :=
      (nodup_names_iff hfree).2 h.apart
    exact ⟨hlines, hapart, read?_render hends hapart hlines⟩

end Joined

end Whole

end Diagram

/-! ## The edges of a table -/

namespace TransitionTable

theorem map_ends_edgesOf (node : String) (t : Transition) :
    (edgesOf node t).map (fun e => (e.source, e.target)) =
      t.targets.map fun target => (node, target.name) := by
  cases t with
  | direct target => rfl
  | conditional branches fallback =>
    simp [edgesOf, Transition.targets, Function.comp_def]
  | route field routes fallback =>
    simp [edgesOf, Transition.targets, Dict.values, Function.comp_def]

/-- The edges of a table are the one to the entry, and one for every target of every transition. -/
theorem map_ends_edges (t : TransitionTable) :
    t.edges.map (fun e => (e.source, e.target)) = (startMarker, t.entry) ::
      t.transitions.flatMap fun p => p.2.targets.map fun target => (p.1, target.name) := by
  simp only [edges, List.map_cons, List.map_flatMap, map_ends_edgesOf]

/-- An edge of a table joins the markers and nodes of the definition. -/
theorem MadeOf.ends_of_mem_edges {d : Definition} {t : TransitionTable} (hmade : t.MadeOf d)
    (hd : d.faults = []) {e : EdgeView} (he : e ∈ t.edges) :
    (isMarker e.source = true ∨ e.source ∈ d.nodeIds) ∧
      (isMarker e.target = true ∨ e.target ∈ d.nodeIds) := by
  have hends : (e.source, e.target) ∈ t.edges.map fun e => (e.source, e.target) :=
    List.mem_map_of_mem he
  rw [map_ends_edges] at hends
  rcases List.mem_cons.1 hends with hentry | htransition
  · obtain ⟨hsource, htarget⟩ := Prod.mk.inj hentry
    rw [hsource, htarget]
    exact ⟨.inl rfl, .inr (hmade.entry_mem hd)⟩
  · obtain ⟨⟨id, transition⟩, hmem, htargets⟩ := List.mem_flatMap.1 htransition
    obtain ⟨target, htarget, heq⟩ := List.mem_map.1 htargets
    obtain ⟨rfl, hname⟩ := Prod.mk.inj heq
    have hget : t.transition? e.source = some transition := by
      unfold transition?
      rw [hmade.transitions] at hmem ⊢
      exact (Dict.get?_eq_some_iff (Definition.rising_transitions d).nodup_names).2 hmem
    refine ⟨.inr ?_, ?_⟩
    · rw [transition?, hmade.transitions] at hget
      obtain ⟨n, hn, hid, -⟩ := Definition.exists_node_of_get?_transitions hget
      exact List.mem_map.2 ⟨n, hn, hid⟩
    · rw [← hname]
      cases target with
      | node other => exact .inr (hmade.leadsWithin hd hget _ htarget other rfl)
      | finish => exact .inl rfl

end TransitionTable

namespace Diagram

/-- The ends of the edges of a table are vertices. -/
theorem mem_vertices_of_madeOf {d : Definition} {t : TransitionTable} (hmade : t.MadeOf d)
    (hd : d.faults = []) {e : EdgeView} (he : e ∈ t.edges) :
    e.source ∈ (vertices d.nodes t.edges).map Prod.fst ∧
      e.target ∈ (vertices d.nodes t.edges).map Prod.fst := by
  obtain ⟨hsource, htarget⟩ := hmade.ends_of_mem_edges hd he
  rw [map_fst_vertices, List.mem_append, List.mem_append]
  exact ⟨hsource.imp_left fun h => mem_markers.2 ⟨h, e, he, .inl rfl⟩,
    htarget.imp_left fun h => mem_markers.2 ⟨h, e, he, .inr rfl⟩⟩

end Diagram

theorem Definition.unreserved_of_forall₂ {entries : List (Yaml.Node × Yaml.Node)}
    {nodes : List NodeDecl} (h : List.Forall₂ DeclaredBy entries nodes) :
    ∀ n ∈ nodes, isMarker n.id = false := by
  induction h with
  | nil => simp
  | cons hentry _ ih => exact List.forall_mem_cons.2 ⟨hentry.unreserved, ih⟩

/-- No node that is read has the id of a marker. -/
theorem Definition.unreserved_of_parse {text : String} {d : Definition} (h : parse text = .ok d) :
    ∀ n ∈ d.nodes, isMarker n.id = false := by
  unfold parse at h
  split at h
  · obtain ⟨root, rfl⟩ := exists_of_ofNode h
    obtain ⟨entries, -, -, hdeclared⟩ := exists_entries_of_ofNode h
    exact unreserved_of_forall₂ hdeclared
  · cases h

namespace Compiler

variable {c : Compiler} {g : CompiledGraph}

/-- The table of a compiled graph is made of its definition, which has no faults. -/
theorem Makes.madeOf (hg : c.Makes g) :
    g.definition.faults = [] ∧ g.graph.frame.table.MadeOf g.definition := by
  obtain ⟨stack, text, h⟩ := hg.compileIn
  obtain ⟨store, assembled, config, -, hassemble, hgraph⟩ := assemble_of_compileIn h
  obtain ⟨hd, below, -, hlinked⟩ := linked_of_assemble hassemble
  rw [hgraph]
  exact ⟨hd, TransitionTable.madeOf hlinked.table⟩

theorem parse_of_compileIn {stack : SourceStack} {text : String}
    (h : c.compileIn stack text = .ok g) : Definition.parse text = .ok g.definition := by
  obtain ⟨d, hread, h⟩ := ok_of_bind h
  obtain ⟨store, -, h⟩ := ok_of_bind h
  obtain ⟨assembled, -, h⟩ := ok_of_bind h
  cases h
  cases hparse : Definition.parse text with
  | error errors =>
    rw [hparse] at hread
    cases hread
  | ok root =>
    rw [hparse] at hread
    cases hread
    rfl

/-- No node of a compiled graph has the id of a marker. -/
theorem Makes.unreserved (hg : c.Makes g) : ∀ n ∈ g.definition.nodes, isMarker n.id = false := by
  obtain ⟨stack, text, h⟩ := hg.compileIn
  exact Definition.unreserved_of_parse (parse_of_compileIn h)

end Compiler

/-- **The diagram of a compiled graph.** The edges of its table are the one to the entry and one for
every target of every transition. The vertices that are drawn are the markers that these mention,
each once, and the nodes, and every edge joins two of them. The diagram is a faithful picture of
them if and only if they can be drawn: no id and no label has a line break, and no two nodes have
one name, which they have if their ids are the same or differ only in characters that names do not
have. -/
theorem diagram_pictures_graph {c : Compiler} {g : CompiledGraph} (hg : c.Makes g) :
    let nodes := g.definition.nodes
    let table := g.graph.frame.table
    table.edges.map (fun e => (e.source, e.target)) = (startMarker, table.entry) ::
        table.transitions.flatMap (fun p => p.2.targets.map fun target => (p.1, target.name)) ∧
      (Diagram.vertices nodes table.edges).map Prod.fst =
        Diagram.markers table.edges ++ nodes.map NodeDecl.id ∧
      (Diagram.markers table.edges).Nodup ∧
      (∀ m, m ∈ Diagram.markers table.edges ↔
        isMarker m = true ∧ ∃ e ∈ table.edges, e.source = m ∨ e.target = m) ∧
      (∀ e ∈ table.edges, e.source ∈ (Diagram.vertices nodes table.edges).map Prod.fst ∧
        e.target ∈ (Diagram.vertices nodes table.edges).map Prod.fst) ∧
      (Diagram.Faithful (g.diagram none) nodes table.edges ↔
        Diagram.Drawable nodes table.edges) := by
  obtain ⟨hd, hmade⟩ := hg.madeOf
  have hends : ∀ e ∈ g.graph.frame.table.edges, _ := fun _ =>
    Diagram.mem_vertices_of_madeOf hmade hd
  exact ⟨TransitionTable.map_ends_edges _, Diagram.map_fst_vertices _ _,
    Diagram.nodup_markers _, fun _ => Diagram.mem_markers, hends,
    Diagram.faithful_iff hends hg.unreserved⟩

/-- A definition with a conditional edge, an edge without condition and a route. -/
def reviewText : String :=
  "name: review
nodes: {pre-check: {type: passthrough}, sort: {type: router, from: kind, routes: {bug: END}}}
edges: [{from: pre-check, to: sort, condition: ok}, {from: pre-check, to: END}]"

/-- Its diagram is a faithful picture with four edges, although an id has a character that names do
not have. -/
theorem review_text_is_pictured :
    ∃ g, bareCompiler.compile reviewText = .ok g ∧ g.graph.frame.table.edges.length = 4 ∧
      Diagram.Faithful (g.diagram none) g.definition.nodes g.graph.frame.table.edges := by
  have hcompiled : (bareCompiler.compile reviewText).toOption.any (fun g =>
      g.graph.frame.table.edges.length == 4 &&
        decide (Diagram.Drawable g.definition.nodes g.graph.frame.table.edges)) = true := by
    decide +kernel
  obtain ⟨g, hg, hcheck⟩ := (Option.any_eq_true _ _).1 hcompiled
  obtain ⟨hfour, hdrawable⟩ := (Bool.and_eq_true _ _).mp hcheck
  have hcompile := eq_ok_of_toOption hg
  obtain ⟨-, -, -, -, -, hiff⟩ :=
    diagram_pictures_graph (c := bareCompiler) (.text reviewText hcompile)
  exact ⟨g, hcompile, beq_iff_eq.1 hfour, hiff.2 (of_decide_eq_true hdrawable)⟩

/-- A definition whose two nodes have ids that differ in a character which names do not have. -/
def clashText : String :=
  "name: flow
nodes: {a-b: {type: passthrough}, a_b: {type: passthrough}}
edges: [{from: START, to: a-b}, {from: a-b, to: a_b}, {from: a_b, to: END}]"

/-- **Two nodes have one name.** The definition is compiled, and its diagram is no faithful picture:
the two nodes are drawn as one, with an edge from it to itself. -/
theorem clashing_nodes_are_drawn_as_one :
    ∃ g, bareCompiler.compile clashText = .ok g ∧ g.definition.nodeIds = ["a-b", "a_b"] ∧
      Diagram.edgeLine ⟨"a-b", "a_b", none⟩ = "    a_b --> a_b" ∧
      ¬ Diagram.Faithful (g.diagram none) g.definition.nodes g.graph.frame.table.edges := by
  have hcompiled : (bareCompiler.compile clashText).toOption.any (fun g =>
      g.definition.nodeIds == ["a-b", "a_b"]) = true := by
    decide +kernel
  obtain ⟨g, hg, hcheck⟩ := (Option.any_eq_true _ _).1 hcompiled
  have hids : g.definition.nodeIds = ["a-b", "a_b"] := beq_iff_eq.1 hcheck
  refine ⟨g, eq_ok_of_toOption hg, hids, by decide +kernel, fun hfaithful => ?_⟩
  have hapart := hfaithful.apart
  rw [Diagram.map_identifier_vertices] at hapart
  have hnames : (g.definition.nodeIds.map Diagram.identifier).Nodup := by
    simpa [Definition.nodeIds, Function.comp_def] using (List.nodup_append.1 hapart).2.1
  rw [hids] at hnames
  revert hnames
  decide +kernel

end WorkflowGraph
