import WorkflowGraph.Definition.Reader
import WorkflowGraph.Proofs.Yaml.Reading

/-!
# Definitions of nodes that are alike

Everything in a definition but its nodes is looked up by name, so a document and the value that it
spells give the same definition up to the order of the nodes (`Definition.ofNode_reordered`). Where
the ids of the nodes rise in the document, the order is the same as well
(`Definition.ofNode_eq_of_rising`).
-/

set_option autoImplicit false

namespace WorkflowGraph

open Yaml Node

theorem Number.respects_ofNode? : Respects Number.ofNode? :=
  respects_of (fun _ _ _ _ => rfl) fun _ _ _ _ => rfl

/-! ## Bodies of nodes -/

variable {es others : Entries}

theorem NodeOptions.ofEntries?_eq (h : es.Alike others) : ofEntries? es = ofEntries? others := by
  unfold ofEntries?
  simp only [h.fieldOptional? respects_text?, h.fieldOptional? (respects_choice? _ _),
    h.fieldOptional? respects_toValue?, h.fieldOr? (respects_choice? _ _),
    h.fieldOptional? respects_nat?, h.fieldOr? respects_text?.list?,
    h.fieldOptional? respects_flag?, h.fieldOptional? respects_duration?]

namespace NodeKind

theorem texts?_eq (h : es.Alike others) (key : String) : texts? es key = texts? others key :=
  h.fieldOr? respects_text?.dict? key []

theorem mapSpec?_eq (h : es.Alike others) : mapSpec? es = mapSpec? others := by
  unfold mapSpec?
  simp only [h.field? respects_text?, h.fieldOptional? respects_nat?]

theorem leaf?_eq (h : es.Alike others) (kind : String) : leaf? kind es = leaf? kind others := by
  unfold leaf? transform? router? agent? interrupt? subgraph? passthrough?
  simp only [h.field? respects_text?, h.fieldOptional? respects_text?, h.fieldOr? respects_text?,
    h.fieldOptional? respects_nat?, h.fieldOr? respects_text?.list?,
    h.fieldOptional? respects_toValue?, h.fieldOr? respects_toValue?.dict?,
    h.fieldOr? Number.respects_ofNode?.dict?, texts?_eq h]

theorem isSound_eq (h : es.Alike others) (kind : String) :
    isSound kind es = isSound kind others := by
  unfold isSound
  rw [h.untagged, h.once]

/-- Whether the bodies of two nodes have the same kind and the same fields. -/
def AlikeBodies (p q : String × Entries) : Prop := p.1 = q.1 ∧ p.2.Alike q.2

theorem alikeBodies_of_sound {kind : String} (h : es.Alike others) :
    Option.Rel AlikeBodies (if isSound kind es then some (kind, es) else none)
      (if isSound kind others then some (kind, others) else none) := by
  rw [isSound_eq h]
  split
  · exact .some ⟨rfl, h⟩
  · exact .none

theorem entriesOf?_alike {n m : Node} (h : n.Alike m) :
    Option.Rel AlikeBodies (entriesOf? n) (entriesOf? m) := by
  have hrecord := h.record? []
  unfold entriesOf?
  generalize n.record? [] = found, m.record? [] = found' at hrecord
  cases hrecord with
  | none => exact .none
  | some hentries =>
    simp only [Option.bind_eq_bind, Option.bind_some, hentries.field? respects_text?]
    cases Entries.field? _ "type" text? with
    | none => exact .none
    | some kind => exact alikeBodies_of_sound hentries

theorem innerEntriesOf?_texts (es : Entries) :
    innerEntriesOf? (.mapping es.texts) =
      (es.field? "type" placedName?).bind fun kind =>
        if isSound kind es then some (kind, es) else none := by
  have hnamed (kind : String) : Entries.named? (placeKey? (fieldNames kind)) es.texts = some es :=
    Entries.named?_texts (fun _ => rfl) es
  simp only [innerEntriesOf?, Entries.lookup?_texts, hnamed, Option.bind_eq_bind, Option.bind_some,
    Entries.field?]

theorem innerEntriesOf?_alike {n m : Node} (h : n.Alike m) :
    Option.Rel AlikeBodies (innerEntriesOf? n) (innerEntriesOf? m) := by
  rcases h.parts with ⟨rfl, hscalar⟩ | ⟨_, _, rfl, rfl, _⟩ | ⟨es, others, rfl, rfl, hentries⟩
  · cases n <;> first | exact .none | cases hscalar
  · exact .none
  · have hplaced : Respects placedName? := respects_of (fun _ _ _ _ => rfl) fun _ _ _ _ => rfl
    rw [innerEntriesOf?_texts, innerEntriesOf?_texts, hentries.alike.field? hplaced]
    cases others.field? "type" placedName? with
    | none => exact .none
    | some kind => exact alikeBodies_of_sound hentries.alike

/-- How the node inside a map is read once its entries are known. -/
theorem ofInner?_eq {body : Node} {kind : String} {es : Entries}
    (h : innerEntriesOf? body = some (kind, es)) :
    ofInner? body =
      if kind = "map" then
        (es.get? "node").bind fun inner =>
          match ofInner? inner, mapSpec? es, NodeOptions.ofEntries? es with
          | some (innerKind, innerOptions), some spec, some options =>
            some (.map spec innerOptions innerKind, options)
          | _, _, _ => none
      else
        match leaf? kind es, NodeOptions.ofEntries? es with
        | some read, some options => some (read, options)
        | _, _ => none := by
  rw [ofInner?]
  split
  · next hnone =>
    rw [h] at hnone
    cases hnone
  · next hsome =>
    rw [h] at hsome
    cases hsome
    split
    · split
      · next hnode =>
        rw [hnode]
        rfl
      · next hnode =>
        dsimp only
        rw [hnode]
        rfl
    · rfl

theorem ofInner?_eq_none {body : Node} (h : innerEntriesOf? body = none) :
    ofInner? body = none := by
  rw [ofInner?]
  split
  · rfl
  · next hsome =>
    rw [h] at hsome
    cases hsome

/-- The node inside a map, by induction on its size. -/
theorem respects_ofInner? : Respects ofInner? := by
  intro n
  induction hsize : sizeOf n using Nat.strongRecOn generalizing n with
  | _ size ih =>
    subst hsize
    intro m h
    match hn : innerEntriesOf? n, hm : innerEntriesOf? m, innerEntriesOf?_alike h with
    | _, _, .none => rw [ofInner?_eq_none hn, ofInner?_eq_none hm]
    | some (kind, es), some (_, others), .some ⟨rfl, hentries⟩ =>
      rw [ofInner?_eq hn, ofInner?_eq hm, leaf?_eq hentries, mapSpec?_eq hentries,
        NodeOptions.ofEntries?_eq hentries]
      split
      · match hnode : es.get? "node", others.get? "node", hentries.found "node" with
        | _, _, .none => rfl
        | some inner, some other, .some hinner =>
          have hlt := sizeOf_lt_of_innerEntriesOf? hn "node" inner hnode
          rw [Option.bind_some, Option.bind_some, ih _ hlt inner rfl other hinner]
      · rfl

theorem ofEntries?_eq (h : es.Alike others) (kind : String) :
    ofEntries? kind es = ofEntries? kind others := by
  unfold ofEntries?
  rw [h.field? respects_ofInner?, mapSpec?_eq h, leaf?_eq h]

end NodeKind

namespace NodeDecl

theorem respects_parts? : Respects parts? := by
  intro n m h
  unfold parts?
  match NodeKind.entriesOf? n, NodeKind.entriesOf? m, NodeKind.entriesOf?_alike h with
  | _, _, .none => rfl
  | some (kind, es), some (_, others), .some ⟨rfl, hentries⟩ =>
    simp only [Option.bind_eq_bind, Option.bind_some, NodeKind.ofEntries?_eq hentries,
      NodeOptions.ofEntries?_eq hentries]

/-- How the type of a node is looked at, where it is a known one. -/
theorem typeFault?_eq (id : String) (body : Node) :
    typeFault? id body =
      match body.get? "type" with
      | none => some (.invalidNode id .missingType)
      | some (.text name) =>
        if !NodeKind.names.contains name then some (.unknownNodeType id name)
        else if name = "map" then
          (body.get? "node").bind fun inner =>
            match typeFault? (innerId id) inner with
            | some e => some e
            | none =>
              if (parts? inner).isSome then none
              else some (.invalidNode (innerId id) .unreadable)
        else none
      | some _ => some (.invalidNode id .typeNotText) := by
  rw [typeFault?]
  cases htype : body.get? "type" with
  | none => rfl
  | some type =>
    cases type with
    | text name =>
      dsimp only
      by_cases hname : (!NodeKind.names.contains name) = true
      · rw [if_pos hname, if_pos hname]
      · rw [if_neg hname, if_neg hname]
        by_cases hmap : name = "map"
        · rw [if_pos hmap, if_pos hmap]
          split
          · next hnode =>
            rw [hnode]
            rfl
          · next hnode =>
            rw [hnode]
            rfl
        · rw [if_neg hmap, if_neg hmap]
    | _ => rfl

/-- The refusal of a node, by induction on its size. -/
theorem respects_typeFault? (id : String) : Respects (typeFault? id) := by
  intro n
  induction hsize : sizeOf n using Nat.strongRecOn generalizing n id with
  | _ size ih =>
    subst hsize
    intro m h
    rw [typeFault?_eq, typeFault?_eq]
    match n.get? "type", m.get? "type", h.get? "type" with
    | _, _, .none => rfl
    | some type, some other, .some htype =>
      have hnode := h.get? "node"
      rcases htype.parts with ⟨rfl, _⟩ | ⟨_, _, rfl, rfl, _⟩ | ⟨_, _, rfl, rfl, _⟩
      · cases type with
        | text name =>
          dsimp only
          split
          · rfl
          · split
            · match hn : n.get? "node", m.get? "node", hnode with
              | _, _, .none => rfl
              | some inner, some other, .some hinner =>
                have hlt := Node.sizeOf_get?_lt _ _ _ hn
                rw [Option.bind_some, Option.bind_some, ih _ hlt _ inner rfl other hinner,
                  respects_parts? inner other hinner]
            · rfl
        | _ => rfl
      · rfl
      · rfl

theorem respects_ofBody (id : String) : Respects (ofBody id) := by
  intro n m h
  unfold ofBody
  rw [respects_typeFault? id n m h, respects_parts? n m h]

end NodeDecl

/-! ## Edges, tools and settings -/

theorem EdgeTargets.respects_ofNode? : Respects EdgeTargets.ofNode? := by
  refine respects_of (fun items others _ h => ?_) fun _ _ _ _ => rfl
  rw [ofNode?, ofNode?, untaggedItems_eq h, respects_text?.all? h]

theorem EdgeDecl.respects_ofNode? : Respects EdgeDecl.ofNode? :=
  respects_record fun es others h => by
    simp only [h.field? respects_text?, h.field? EdgeTargets.respects_ofNode?,
      h.fieldOptional? respects_text?]

theorem ToolDecl.respects_ofNode? : Respects ToolDecl.ofNode? :=
  respects_record fun es others h => by
    simp only [h.fieldOptional? respects_text?, h.fieldOptional? respects_toValue?]

theorem Defaults.respects_ofNode? : Respects Defaults.ofNode? :=
  respects_record fun es others h => by
    simp only [h.fieldOr? respects_nat?, h.fieldOptional? respects_nat?, h.fieldOr? respects_flag?,
      h.fieldOptional? respects_duration?, h.fieldOr? respects_duration?,
      h.fieldOptional? respects_toValue?, h.fieldOr? respects_text?]

namespace StoreConfig

theorem settings?_eq (h : es.Alike others) : settings? es = settings? others := by
  unfold settings?
  simp only [h.field? respects_text?, h.fieldOr? respects_flag?, h.once]

theorem ofType?_eq {settings given : Option Entries} (h : Option.Rel Entries.Alike settings given)
    (type : String) : ofType? type settings = ofType? type given := by
  cases h with
  | none => rfl
  | some h =>
    unfold ofType?
    simp only [Option.bind_some, settings?_eq h]

theorem isSound_texts (h : es.untagged = true) : isSound es.texts = true := by
  refine List.all_eq_true.2 (List.forall_mem_map.2 fun e he => ?_)
  dsimp only
  split
  · rfl
  · exact List.all_eq_true.1 h e he

theorem respects_ofNode? : Respects StoreConfig.ofNode? := by
  refine respects_of (fun items others _ h => ?_) fun es others _ h => ?_
  · cases h with
    | nil => rfl
    | cons hfirst h =>
      unfold ofNode?
      simp only [respects_text? _ _ hfirst, untaggedItems_eq h, ne_eq,
        ← List.length_eq_zero_iff, h.length_eq, ofType?_eq (inOrder?_alike h fieldNames)]
  · have hnamed (es : Entries) : Entries.named? (placeKey? fieldNames) es.texts = some es :=
      Entries.named?_texts (fun _ => rfl) es
    have htype := h.alike.field? respects_text? "type"
    unfold Entries.field? at htype
    unfold ofNode?
    simp only [Entries.lookup?_texts, htype, hnamed, isSound_texts h.untagged.1,
      isSound_texts h.untagged.2, ofType?_eq (.some h.alike)]

end StoreConfig

namespace Definition

theorem readName_eq (h : es.Alike others) : readName es.texts = readName others.texts := by
  unfold readName
  rw [Entries.lookup?_texts, Entries.lookup?_texts]
  match es.get? "name", others.get? "name", h.found "name" with
  | _, _, .none => rfl
  | some n, some m, .some hlike =>
    rcases hlike.parts with ⟨rfl, _⟩ | ⟨_, _, rfl, rfl, _⟩ | ⟨_, _, rfl, rfl, _⟩ <;> rfl

theorem readVersion_eq (h : es.Alike others) : readVersion es.texts = readVersion others.texts := by
  unfold readVersion
  rw [Entries.lookup?_texts, Entries.lookup?_texts]
  match es.get? "version", others.get? "version", h.found "version" with
  | _, _, .none => rfl
  | some n, some m, .some hlike =>
    dsimp only
    rw [respects_name? n m hlike]

theorem readSection_eq {α : Type} {read : Node → Option α} (h : es.Alike others)
    (hread : Respects read) (key : String) (default : α) :
    readSection es.texts key read default = readSection others.texts key read default := by
  unfold readSection
  rw [Entries.lookup?_texts, Entries.lookup?_texts]
  match es.get? key, others.get? key, h.found key with
  | _, _, .none => rfl
  | some n, some m, .some hlike =>
    dsimp only
    rw [respects_isNull n m hlike, hread n m hlike]

theorem readEdges_eq {items edges : List Node} (h : List.Forall₂ Alike items edges) (index : Nat) :
    readEdges index items = readEdges index edges := by
  induction h generalizing index with
  | nil => rfl
  | @cons n m _ _ hlike _ ih =>
    have hfrom : (n.get? "from").bind Node.name? = (m.get? "from").bind Node.name? := by
      match n.get? "from", m.get? "from", hlike.get? "from" with
      | _, _, .none => rfl
      | some found, some other, .some hfound => exact respects_name? found other hfound
    rw [readEdges, readEdges, ih, EdgeDecl.respects_ofNode? n m hlike, hfrom]

theorem readEdgeSection_eq (h : es.Alike others) :
    readEdgeSection es.texts = readEdgeSection others.texts := by
  unfold readEdgeSection
  rw [Entries.lookup?_texts, Entries.lookup?_texts]
  match es.get? "edges", others.get? "edges", h.found "edges" with
  | _, _, .none => rfl
  | some n, some m, .some hlike =>
    rcases hlike.parts with ⟨rfl, _⟩ | ⟨_, _, rfl, rfl, hitems⟩ | ⟨_, _, rfl, rfl, _⟩
    · rfl
    · exact readEdges_eq hitems 0
    · rfl

/-! ## The section of the nodes -/

/-- Read a node with an id. -/
def readNode (id : String) (body : Node) : Except DefinitionError NodeDecl :=
  if isMarker id then .error (.reservedNodeId id) else NodeDecl.ofBody id body

/-- The error that is found in a node with an id. -/
def nodeError? (id : String) (body : Node) : Option DefinitionError :=
  match readNode id body with
  | .ok _ => none
  | .error e => some e

/-- The errors and the nodes of a mapping stand in the order of its entries. -/
theorem readNodes_texts (es : Entries) :
    readNodes es.texts =
      (es.filterMap fun e => nodeError? e.1 e.2,
        es.filterMap fun e => (readNode e.1 e.2).toOption) := by
  induction es with
  | nil => rfl
  | cons e rest ih =>
    rw [Entries.texts, List.map_cons, readNodes, ← Entries.texts, ih, List.filterMap_cons,
      List.filterMap_cons]
    unfold nodeError? readNode
    dsimp only [name?]
    split
    · rfl
    · cases NodeDecl.ofBody e.1 e.2 <;> rfl

theorem readNodes_eq_of_forall₂
    (h : List.Forall₂ (fun e f => e.1 = f.1 ∧ e.2.Alike f.2) es others) :
    readNodes es.texts = readNodes others.texts := by
  rw [readNodes_texts, readNodes_texts]
  induction h with
  | nil => rfl
  | @cons e f _ _ hef _ ih =>
    obtain ⟨herrors, hnodes⟩ := Prod.mk.inj ih
    have hread : readNode e.1 e.2 = readNode f.1 f.2 := by
      unfold readNode
      rw [hef.1, NodeDecl.respects_ofBody f.1 _ _ hef.2]
    simp only [List.filterMap_cons, nodeError?, hread] at herrors ⊢
    rw [herrors, hnodes]

theorem readNodes_perm (h : es.Reordered others) :
    (readNodes es.texts).1.Perm (readNodes others.texts).1 ∧
      (readNodes es.texts).2.Perm (readNodes others.texts).2 := by
  obtain ⟨between, hbetween, hperm⟩ := h.exists_perm
  rw [readNodes_eq_of_forall₂ hbetween, readNodes_texts, readNodes_texts]
  exact ⟨hperm.filterMap _, hperm.filterMap _⟩

/-- The ids of the nodes of a document, as they are written. -/
def writtenIds (root : Node) : List String :=
  match root.get? "nodes" with
  | some (.mapping entries) => entries.filterMap fun e => e.1.name?
  | _ => []

/-- Whether the ids of the nodes of a document stand in rising order. -/
def NodesRise (root : Node) : Prop := (writtenIds root).Pairwise (· < ·)

instance (root : Node) : Decidable (NodesRise root) :=
  inferInstanceAs (Decidable ((writtenIds root).Pairwise (· < ·)))

theorem writtenIds_texts {root : Node} (h : root.get? "nodes" = some (.mapping es.texts)) :
    writtenIds root = es.map Prod.fst := by
  unfold writtenIds
  rw [h]
  dsimp only
  clear h
  induction es with
  | nil => rfl
  | cons e rest ih =>
    rw [Entries.texts, List.map_cons, List.filterMap_cons, ← Entries.texts, ih]
    rfl

/-- The section of the nodes is read in the order of its entries. Nothing else in a definition has
an order of its own. -/
theorem readNodeSection_cases (h : es.Alike others) :
    readNodeSection es.texts = readNodeSection others.texts ∨
      ∃ nodes rising : Entries, es.get? "nodes" = some (.mapping nodes.texts) ∧
        nodes.Reordered rising ∧ readNodeSection es.texts = readNodes nodes.texts ∧
        readNodeSection others.texts = readNodes rising.texts := by
  unfold readNodeSection
  rw [Entries.lookup?_texts, Entries.lookup?_texts]
  match es.get? "nodes", others.get? "nodes", h.found "nodes" with
  | _, _, .none => exact .inl rfl
  | some n, some m, .some hlike =>
    rcases hlike.parts with ⟨rfl, _⟩ | ⟨_, _, rfl, rfl, _⟩ | ⟨nodes, rising, rfl, rfl, hnodes⟩
    · exact .inl rfl
    · exact .inl rfl
    · have hlength := hnodes.length_eq
      cases nodes with
      | nil =>
        rw [List.length_eq_zero_iff.1 hlength.symm]
        exact .inl rfl
      | cons e rest =>
        cases rising with
        | nil => cases hlength
        | cons f more => exact .inr ⟨_, _, rfl, hnodes, rfl, rfl⟩

theorem id_of_readNode {id : String} {body : Node} {node : NodeDecl}
    (h : readNode id body = .ok node) : node.id = id := by
  unfold readNode NodeDecl.ofBody at h
  split at h
  · cases h
  · split at h
    · cases h
    · split at h <;> cases h
      rfl

theorem ids_readNodes_sublist (es : Entries) :
    ((readNodes es.texts).2.map NodeDecl.id).Sublist (es.map Prod.fst) := by
  rw [readNodes_texts]
  dsimp only
  induction es with
  | nil => exact .slnil
  | cons e rest ih =>
    rw [List.filterMap_cons, List.map_cons]
    cases hread : readNode e.1 e.2 with
    | error _ => exact ih.cons _
    | ok node =>
      rw [← id_of_readNode hread]
      exact ih.cons_cons _

/-- The nodes that are read from a value stand in rising order of their ids. -/
theorem readNodeSection_rises (h : es.Alike others) :
    ((readNodeSection others.texts).2.map NodeDecl.id).Pairwise (· < ·) := by
  unfold readNodeSection
  rw [Entries.lookup?_texts]
  match es.get? "nodes", others.get? "nodes", h.found "nodes" with
  | _, _, .none => exact .nil
  | some n, some m, .some hlike =>
    rcases hlike.parts with ⟨rfl, hscalar⟩ | ⟨_, _, rfl, rfl, _⟩ | ⟨_, rising, rfl, rfl, hnodes⟩
    · cases n <;> first | exact .nil | cases hscalar
    · exact .nil
    · cases rising with
      | nil => exact .nil
      | cons f more =>
        exact (List.pairwise_map.2 hnodes.rising).sublist (ids_readNodes_sublist (f :: more))

/-- The definition of a document, where the section of its nodes has been read. -/
def withNodes (root : List (Node × Node)) (nodes : Checked (List NodeDecl)) :
    Except (List DefinitionError) Definition :=
  let (e₁, name) := readName root
  let (e₂, version) := readVersion root
  let (e₃, description) := readSection root "description" (Node.optional? Node.text?) none
  let (e₄, entry) := readSection root "entry" (Node.optional? Node.text?) none
  let (e₅, defaults) := readSection root "defaults" Defaults.ofNode? .standard
  let (e₆, tools) := readSection root "tools" (Node.dict? ToolDecl.ofNode?) []
  let (e₇, loopLimits) := readSection root "loop_limits" (Node.dict? Node.nat?) []
  let (e₈, checkpoint) :=
    readSection root "checkpoint" (fun n => (StoreConfig.ofNode? n).map some) none
  let (e₁₀, edges) := readEdgeSection root
  let errors := e₁ ++ e₂ ++ e₃ ++ e₄ ++ e₅ ++ e₆ ++ e₇ ++ e₈ ++ nodes.1 ++ e₁₀
  if errors.isEmpty then
    .ok ⟨version, name, description, entry, defaults, tools, nodes.2, edges, loopLimits, checkpoint⟩
  else .error errors

theorem ofNode_mapping (root : List (Node × Node)) :
    ofNode (.mapping root) = withNodes root (readNodeSection root) := rfl

theorem withNodes_eq (h : es.Alike others) (nodes : Checked (List NodeDecl)) :
    withNodes es.texts nodes = withNodes others.texts nodes := by
  have hcheckpoint : Respects fun n => (StoreConfig.ofNode? n).map some := fun n m hlike =>
    congrArg (Option.map some) (StoreConfig.respects_ofNode? n m hlike)
  unfold withNodes
  rw [readName_eq h, readVersion_eq h, readSection_eq h respects_text?.optional?,
    readSection_eq h respects_text?.optional?, readSection_eq h Defaults.respects_ofNode?,
    readSection_eq h ToolDecl.respects_ofNode?.dict?, readSection_eq h respects_nat?.dict?,
    readSection_eq h hcheckpoint, readEdgeSection_eq h]

/-- Whether two results of reading a definition differ in the order of the nodes, or of the errors,
at most. -/
inductive Reordered : Except (List DefinitionError) Definition →
    Except (List DefinitionError) Definition → Prop where
  | ok {d : Definition} {nodes : List NodeDecl} (h : d.nodes.Perm nodes) :
    Reordered (.ok d) (.ok { d with nodes := nodes })
  | error {errors others : List DefinitionError} (h : errors.Perm others) :
    Reordered (.error errors) (.error others)

theorem Reordered.refl (r : Except (List DefinitionError) Definition) : Reordered r r := by
  cases r with
  | ok d => exact .ok (.refl d.nodes)
  | error errors => exact .error (.refl errors)

theorem withNodes_reordered (root : List (Node × Node)) {nodes others : Checked (List NodeDecl)}
    (herrors : nodes.1.Perm others.1) (hnodes : nodes.2.Perm others.2) :
    Reordered (withNodes root nodes) (withNodes root others) := by
  have hall : ∀ before after : List DefinitionError,
      (before ++ nodes.1 ++ after).Perm (before ++ others.1 ++ after) :=
    fun before after => (herrors.append_left before).append_right after
  unfold withNodes
  dsimp only
  rw [(hall _ _).isEmpty_eq]
  split
  · exact .ok hnodes
  · exact .error (hall _ _)

/-- Nodes that are alike give the same definition up to the order of the nodes. -/
theorem ofNode_reordered {n m : Node} (h : n.Alike m) : Reordered (ofNode n) (ofNode m) := by
  rcases h.parts with ⟨rfl, _⟩ | ⟨_, _, rfl, rfl, _⟩ | ⟨es, others, rfl, rfl, hentries⟩
  · exact .refl _
  · exact .refl _
  · rw [ofNode_mapping, ofNode_mapping, withNodes_eq hentries.alike]
    rcases readNodeSection_cases hentries.alike with heq | ⟨nodes, rising, _, hnodes, hread, hother⟩
    · rw [heq]
      exact .refl _
    · rw [hread, hother]
      exact withNodes_reordered _ (readNodes_perm hnodes).1 (readNodes_perm hnodes).2

/-- Where the ids of the nodes rise, the order is the same. -/
theorem ofNode_eq_of_rising {n m : Node} (h : n.Alike m) (hrise : NodesRise n) :
    ofNode n = ofNode m := by
  rcases h.parts with ⟨rfl, _⟩ | ⟨_, _, rfl, rfl, _⟩ | ⟨es, others, rfl, rfl, hentries⟩
  · rfl
  · rfl
  · rw [ofNode_mapping, ofNode_mapping, withNodes_eq hentries.alike]
    rcases readNodeSection_cases hentries.alike with heq |
      ⟨nodes, rising, hn, hnodes, hread, hother⟩
    · rw [heq]
    · have hfound : (Node.mapping es.texts).get? "nodes" = some (.mapping nodes.texts) :=
        (Entries.lookup?_texts es "nodes").trans hn
      have hids : (nodes.map Prod.fst).Pairwise (· < ·) := by
        rwa [NodesRise, writtenIds_texts hfound] at hrise
      rw [hread, hother, readNodes_eq_of_forall₂ (hnodes.forall₂ (List.pairwise_map.1 hids))]

theorem nodes_of_withNodes {root : List (Node × Node)} {nodes : Checked (List NodeDecl)}
    {d : Definition} (h : withNodes root nodes = .ok d) : d.nodes = nodes.2 := by
  unfold withNodes at h
  dsimp only at h
  split at h
  · cases h
    rfl
  · cases h

theorem nodeIds_rise_of_alike {n m : Node} (h : n.Alike m) {d : Definition}
    (hd : ofNode m = .ok d) : d.nodeIds.Pairwise (· < ·) := by
  rcases h.parts with ⟨rfl, hscalar⟩ | ⟨_, _, rfl, rfl, _⟩ | ⟨es, others, rfl, rfl, hentries⟩
  · cases n <;> first | cases hd | cases hscalar
  · cases hd
  · rw [ofNode_mapping] at hd
    unfold nodeIds
    rw [nodes_of_withNodes hd]
    exact readNodeSection_rises hentries.alike

section Value

variable {text : String} {root : Node} (hroot : Yaml.read? text = some root)
  (hplain : root.isPlain = true) {v : Value} (hv : root.toValue? = some v)

include hroot hplain hv

theorem alike_ofValue : root.Alike (.ofValue v) :=
  ⟨v, spells_of_toValue? (distinct_of_read? hroot) hplain hv, rfl⟩

/-- The value of a document gives the same definition as its text, up to the order of the nodes. -/
theorem ofValue_reordered : Reordered (parse text) (ofValue v) := by
  unfold parse ofValue
  rw [hroot]
  exact ofNode_reordered (alike_ofValue hroot hplain hv)

theorem nodeIds_ofValue_rise {d : Definition} (hd : ofValue v = .ok d) :
    d.nodeIds.Pairwise (· < ·) :=
  nodeIds_rise_of_alike (alike_ofValue hroot hplain hv) hd

theorem ofValue_eq_parse (hrise : NodesRise root) : ofValue v = parse text := by
  unfold parse ofValue
  rw [hroot]
  exact (ofNode_eq_of_rising (alike_ofValue hroot hplain hv) hrise).symm

end Value

end Definition

end WorkflowGraph
