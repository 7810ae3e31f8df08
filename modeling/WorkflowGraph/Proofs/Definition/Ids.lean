import WorkflowGraph.Proofs.Compiler.Wiring
import WorkflowGraph.Proofs.Decimal.Layout
import WorkflowGraph.Proofs.Definition.Reading
import WorkflowGraph.Proofs.Transition.EdgeList
import WorkflowGraph.Proofs.Yaml.Depth
import WorkflowGraph.Yaml.Node

/-!
# Ids of nodes

The id of a node is the name that its key stands for, and a definition has one node for each entry
of its section of nodes, in the order of the entries (`Definition.forall₂_of_readNodes`). The keys
of a mapping are not the same, but this is said of the keys as they are, and not of their names: a
text may be written like a number or a boolean that is another key. The ids are pairwise different
if and only if this is not so, and no two floating-point keys are written alike
(`Definition.nodup_nodeIds_iff`).

Under an id, a graph has the node and the transition of the last declared node with this id
(`Compiler.stands_of_last`). So a graph has all declared nodes where their ids are pairwise
different, and of two with one id the first one is lost.

A scalar stands for a name: a text for itself, and a number or a boolean for the text that it is
written as. Integers, floating-point numbers and booleans are written so that no two of different
types have the same name: an integer has digits and a sign only, a floating-point number always has
a point or an exponent as well, and starts with neither of the letters that booleans start with. So
two scalars that are not the same and have one name are a text and something that is written like
it, or two floating-point numbers (`Yaml.Node.exists_text_or_floats`).
-/

set_option autoImplicit false

namespace WorkflowGraph

namespace Yaml.Node

/-! ## Names -/

theorem isFloating_of_name? {x : Float} {s : String} (h : (Node.float x).name? = some s) :
    IsFloating s := by
  obtain rfl := Option.some.inj h
  split
  · exact ⟨⟨'.', rfl, .inr rfl⟩, .inl (by decide)⟩
  · split
    · split
      · exact ⟨⟨'-', rfl, .inl (.inr rfl)⟩, .inl (by decide)⟩
      · exact ⟨⟨'.', rfl, .inr rfl⟩, .inl (by decide)⟩
    · exact NumberLayout.name.isFloating_write x

/-- The first letter of a boolean starts no number. -/
theorem not_numeral_of_bool (b : Bool) {c : Char}
    (h : (if b then "true" else "false").toList.head? = some c) : ¬(IsNumeral c ∨ c = '.') := by
  have hstarts : ¬(IsNumeral 't' ∨ 't' = '.') ∧ ¬(IsNumeral 'f' ∨ 'f' = '.') := by
    unfold IsNumeral
    decide
  cases b with
  | true =>
    obtain rfl := Option.some.inj h
    exact hstarts.1
  | false =>
    obtain rfl := Option.some.inj h
    exact hstarts.2

theorem bool_ne_toString (b : Bool) (n : Int) : (if b then "true" else "false") ≠ toString n := by
  intro h
  obtain ⟨c, rest, hlist⟩ : ∃ c rest, (if b then "true" else "false").toList = c :: rest := by
    cases b <;> exact ⟨_, _, rfl⟩
  have hmem : c ∈ (toString n).toList := by
    rw [← h, hlist]
    exact List.mem_cons_self
  refine not_numeral_of_bool b ?_ (.inl (isNumeral_of_mem_toString hmem))
  rw [hlist]
  rfl

theorem not_isFloating_bool (b : Bool) : ¬IsFloating (if b then "true" else "false") := by
  intro h
  obtain ⟨c, hc, hstarts⟩ := h.starts
  exact not_numeral_of_bool b hc hstarts

theorem bool_name_injective :
    Function.Injective fun b : Bool => if b then "true" else "false" := by
  intro b c h
  cases b <;> cases c <;> simp_all

/-- The node that a name comes from, unless that is a floating-point number: a text, an integer or
a boolean. -/
theorem text_or_int_or_bool {k : Node} {s : String} (h : k.name? = some s)
    (hfloat : ¬IsFloating s) :
    k = .text s ∨ (∃ n, k = .int n ∧ toString n = s) ∨
      ∃ b : Bool, k = .bool b ∧ (if b then "true" else "false") = s := by
  cases k with
  | text a => exact .inl (congrArg Node.text (Option.some.inj h))
  | int n => exact .inr (.inl ⟨n, rfl, Option.some.inj h⟩)
  | bool b => exact .inr (.inr ⟨b, rfl, Option.some.inj h⟩)
  | float x => exact absurd (isFloating_of_name? h) hfloat
  | _ => cases h

theorem text_or_float {k : Node} {s : String} (h : k.name? = some s) (hfloat : IsFloating s) :
    k = .text s ∨ ∃ x, k = .float x := by
  cases k with
  | text a => exact .inl (congrArg Node.text (Option.some.inj h))
  | float x => exact .inr ⟨x, rfl⟩
  | int n =>
    obtain rfl := Option.some.inj h
    exact absurd hfloat (not_isFloating_toString n)
  | bool b =>
    obtain rfl := Option.some.inj h
    exact absurd hfloat (not_isFloating_bool b)
  | _ => cases h

/-- **Scalars with one name.** Two scalars that are not the same and stand for the same name are a
text and a number or a boolean that is written like it, or two floating-point numbers. -/
theorem exists_text_or_floats {k l : Node} {s : String} (hk : k.name? = some s)
    (hl : l.name? = some s) (hsame : k.same l = false) :
    (k = .text s ∧ l ≠ .text s) ∨ (l = .text s ∧ k ≠ .text s) ∨
      ∃ x y, k = .float x ∧ l = .float y := by
  by_cases hkText : k = .text s
  · refine .inl ⟨hkText, ?_⟩
    rintro rfl
    rw [hkText, same, beq_self_eq_true] at hsame
    cases hsame
  · by_cases hlText : l = .text s
    · exact .inr (.inl ⟨hlText, hkText⟩)
    · by_cases hfloat : IsFloating s
      · obtain ⟨x, rfl⟩ := (text_or_float hk hfloat).resolve_left hkText
        obtain ⟨y, rfl⟩ := (text_or_float hl hfloat).resolve_left hlText
        exact .inr (.inr ⟨x, y, rfl, rfl⟩)
      · exfalso
        rcases (text_or_int_or_bool hk hfloat).resolve_left hkText with
            ⟨n, rfl, hn⟩ | ⟨b, rfl, hb⟩ <;>
          rcases (text_or_int_or_bool hl hfloat).resolve_left hlText with
            ⟨m, rfl, hm⟩ | ⟨c, rfl, hc⟩
        · obtain rfl := Int.repr_injective (hn.trans hm.symm)
          rw [same, beq_self_eq_true] at hsame
          cases hsame
        · exact bool_ne_toString c n (hc.trans hn.symm)
        · exact bool_ne_toString b m (hb.trans hm.symm)
        · obtain rfl := bool_name_injective (hb.trans hc.symm)
          rw [same, beq_self_eq_true] at hsame
          cases hsame

end Yaml.Node

open Yaml

namespace Definition

/-! ## One node for each entry -/

/-- Whether a node is the one that an entry declares: its id is the name of the key and no marker,
and the rest of it has been read from the body. -/
structure DeclaredBy (entry : Node × Node) (n : NodeDecl) : Prop where
  id : entry.1.name? = some n.id
  unreserved : isMarker n.id = false
  body : NodeDecl.ofBody n.id entry.2 = .ok n

/-- Where no entry has an error, each one gives a node. -/
theorem forall₂_of_readNodes {entries : List (Node × Node)} {nodes : List NodeDecl}
    (h : readNodes entries = ([], nodes)) : List.Forall₂ DeclaredBy entries nodes := by
  induction entries generalizing nodes with
  | nil =>
    cases h
    exact .nil
  | cons entry rest ih =>
    obtain ⟨key, body⟩ := entry
    unfold readNodes at h
    dsimp only at h
    split at h
    · cases h
    · next id hid =>
      split at h
      · cases h
      · next hmarker =>
        split at h
        · next node hnode =>
          obtain ⟨herrors, rfl⟩ := Prod.mk.inj h
          have hread : readNode id body = .ok node := by rw [readNode, if_neg hmarker, hnode]
          obtain rfl := id_of_readNode hread
          exact .cons ⟨hid, by simpa using hmarker, hnode⟩ (ih (Prod.ext herrors rfl))
        · cases h

variable {root entries : List (Node × Node)} {d : Definition}

/-- The nodes of a definition that is read without errors. -/
theorem exists_entries_of_ofNode (h : ofNode (.mapping root) = .ok d) :
    ∃ entries, Node.lookup? root "nodes" = some (.mapping entries) ∧ entries ≠ [] ∧
      List.Forall₂ DeclaredBy entries d.nodes := by
  rw [ofNode_mapping] at h
  have herrors : (readNodeSection root).1 = [] := by
    unfold withNodes at h
    dsimp only at h
    split at h
    · next hnone =>
      simp only [List.isEmpty_iff, List.append_eq_nil_iff] at hnone
      exact hnone.1.2
    · cases h
  have hnodes := nodes_of_withNodes h
  unfold readNodeSection at herrors hnodes
  split at herrors
  · next first rest hlookup =>
    refine ⟨first :: rest, hlookup, List.cons_ne_nil _ _, forall₂_of_readNodes ?_⟩
    rw [hlookup] at hnodes
    exact Prod.ext herrors hnodes.symm
  · cases herrors
  · cases herrors

/-! ## Ids that are pairwise different -/

/-- Whether the keys of a section of nodes stand for different names: none of them is a text that is
written like another key, and no two floating-point keys are written alike. -/
structure NamesApart (entries : List (Node × Node)) : Prop where
  texts : ∀ p ∈ entries, ∀ q ∈ entries, ∀ s, p.1 = .text s → q.1.name? = some s → q.1 = .text s
  floats : entries.Pairwise fun p q => ∀ x y, p.1 = .float x → q.1 = .float y →
    p.1.name? ≠ q.1.name?

theorem names_of_forall₂ {nodes : List NodeDecl} (h : List.Forall₂ DeclaredBy entries nodes) :
    (nodes.map NodeDecl.id).map some = entries.map fun p => p.1.name? := by
  induction h with
  | nil => rfl
  | cons hentry _ ih =>
    simp only [List.map_cons, hentry.id, ← ih]

/-- Entries with different names have their names apart, and the other way round as long as no two
keys are the same. -/
theorem pairwise_names_iff (hkeys : entries.Pairwise fun p q => p.1.same q.1 = false)
    (hnamed : ∀ p ∈ entries, ∃ s, p.1.name? = some s) :
    (entries.Pairwise fun p q => p.1.name? ≠ q.1.name?) ↔ NamesApart entries := by
  constructor
  · intro h
    refine ⟨fun p hp q hq s hs hname => ?_, h.imp fun hne _ _ _ _ => hne⟩
    by_contra hother
    have hne : p ≠ q := by
      rintro rfl
      exact hother hs
    have : Std.Symm fun p q : Node × Node => p.1.name? ≠ q.1.name? := ⟨fun _ _ => Ne.symm⟩
    exact h.forall hp hq hne (by rw [hs, hname]; rfl)
  · intro h
    refine (hkeys.and h.floats).imp_of_mem fun {p q} hp hq hpq heq => ?_
    obtain ⟨hsame, hfloats⟩ := hpq
    obtain ⟨s, hs⟩ := hnamed p hp
    have hname : q.1.name? = some s := heq ▸ hs
    rcases Node.exists_text_or_floats hs hname hsame with
      ⟨htext, hother⟩ | ⟨htext, hother⟩ | ⟨x, y, hx, hy⟩
    · exact hother (h.texts p hp q hq s htext hname)
    · exact hother (h.texts q hq p hp s htext hs)
    · exact hfloats x y hx hy heq

/-- No two keys of a section are the same. -/
theorem pairwise_keys_of_lookup? {key : String} (hroot : (Node.mapping root).Distinct)
    (h : Node.lookup? root key = some (.mapping entries)) :
    entries.Pairwise fun p q => p.1.same q.1 = false := by
  obtain ⟨p, hp, hsection⟩ := Node.exists_of_lookup? h
  cases hroot with
  | mapping _ hinner =>
    have hdistinct := hinner p hp
    rw [hsection] at hdistinct
    cases hdistinct with | mapping hkeys _ => exact hkeys

/-- **The ids of a definition are pairwise different if and only if its keys have their names
apart.** -/
theorem nodup_nodeIds_iff (hkeys : entries.Pairwise fun p q => p.1.same q.1 = false)
    (h : List.Forall₂ DeclaredBy entries d.nodes) : d.nodeIds.Nodup ↔ NamesApart entries := by
  have hnames := names_of_forall₂ h
  have hnamed : ∀ p ∈ entries, ∃ s, p.1.name? = some s := by
    intro p hp
    have hmem : p.1.name? ∈ (d.nodes.map NodeDecl.id).map some := by
      rw [hnames]
      exact List.mem_map_of_mem hp
    obtain ⟨s, _, hs⟩ := List.mem_map.1 hmem
    exact ⟨s, hs.symm⟩
  rw [← pairwise_names_iff hkeys hnamed, nodeIds,
    ← List.nodup_map_iff (Option.some_injective String), hnames]
  exact List.pairwise_map

end Definition

/-! ## What a graph has under an id -/

namespace GraphNode

theorem lookup?_append (nodes more : List (String × GraphNode)) (id : String) :
    lookup? (nodes ++ more) id = (lookup? more id).or (lookup? nodes id) := by
  induction nodes with
  | nil => simp [lookup?]
  | cons p rest ih =>
    obtain ⟨key, node⟩ := p
    rw [List.cons_append, lookup?, ih, lookup?]
    cases lookup? more id <;> rfl

theorem lookup?_eq_none {nodes : List (String × GraphNode)} {id : String}
    (h : ∀ p ∈ nodes, p.1 ≠ id) : lookup? nodes id = none := by
  cases hfound : lookup? nodes id with
  | none => rfl
  | some node => exact absurd rfl (h _ (mem_of_lookup? hfound))

end GraphNode

namespace Compiler

variable {c : Compiler} {inner : Inner} {env : Surroundings}

theorem nodesOf_append (nodes more : List NodeDecl) :
    c.nodesOf inner env (nodes ++ more) =
      ((c.nodesOf inner env nodes).1 ++ (c.nodesOf inner env more).1,
        (c.nodesOf inner env nodes).2 ++ (c.nodesOf inner env more).2) := by
  induction nodes with
  | nil => rfl
  | cons n rest ih =>
    rw [List.cons_append, nodesOf, ih, nodesOf]
    simp only [List.append_assoc]

/-- Whether a graph has a declared node under its id: what the node is compiled to, in surroundings
of its definition, is what is run under the id, and the transition of the node is the one that the
table has under it. -/
structure Stands (c : Compiler) (d : Definition) (g : Graph) (n : NodeDecl) : Prop where
  node : ∃ inner env made, env.definition = d ∧ env.table = some g.frame.table ∧
    (c.nodeOf inner env n.id n.options (isSkipped env n) n.kind).made = some made ∧
    GraphNode.lookup? g.nodes n.id = some made ∧
    GraphNode.runnerIn? g.nodes n.id = some made.runner
  transition : ∃ t, (d.transitionOf n).1 = some t ∧ g.frame.table.transition? n.id = some t

/-- **Of the nodes with one id, a graph has the last one.** -/
theorem stands_of_last {store : Option Store} {depth : Nat} {stack : SourceStack} {d : Definition}
    {g : Graph} (h : c.assemble store depth stack d = .ok g) {before after : List NodeDecl}
    {n : NodeDecl} (hnodes : d.nodes = before ++ n :: after) (hlast : ∀ m ∈ after, m.id ≠ n.id) :
    c.Stands d g n := by
  obtain ⟨hd, below, rfl, hlinked⟩ := linked_of_assemble h
  have hmem : n ∈ d.nodes := by
    rw [hnodes]
    exact List.mem_append_right _ List.mem_cons_self
  constructor
  · let env : Surroundings := ⟨d, some g.frame.table, (c.bindTools d.tools).1, stack⟩
    have herrors := hlinked.errors
    have hcompiled := hlinked.nodes
    rw [hnodes, nodesOf_append, nodesOf] at herrors hcompiled
    simp only [List.append_eq_nil_iff] at herrors
    have htools : ∀ name, d.tools.has name = true → (Dict.get? env.tools name).isSome :=
      fun name hname => isSome_get?_bindTools hlinked.tools hname
    have hmade := nodeOf_complete (innerAt_complete c store below) htools n.kind
      ((Definition.faults_eq_nil_iff.1 hd).2.1 n hmem) herrors.2.1
    obtain ⟨made, hmade⟩ := Option.isSome_iff_exists.1 hmade
    have hafter :
        GraphNode.lookup? (c.nodesOf (c.innerAt store below) env after).1 n.id = none := by
      refine GraphNode.lookup?_eq_none fun p hp heq => ?_
      obtain ⟨m, hm, hid, _⟩ := exists_of_mem_nodesOf hp
      exact hlast m hm (hid.trans heq)
    have hlookup : GraphNode.lookup? g.nodes n.id = some made := by
      rw [hcompiled, GraphNode.lookup?_append, GraphNode.lookup?_append, hafter, hmade]
      simp [GraphNode.lookup?]
    exact ⟨_, env, made, rfl, rfl, hmade, hlookup, GraphNode.runnerIn?_of_lookup? hlookup⟩
  · have htable := TransitionTable.madeOf hlinked.table
    obtain ⟨t, ht⟩ := Option.isSome_iff_exists.1
      (Definition.isSome_transitionOf hd (htable.edges n hmem))
    refine ⟨t, ht, ?_⟩
    unfold TransitionTable.transition?
    rw [htable.transitions]
    exact Definition.get?_transitions_of_last hnodes hlast ht

/-- Where the ids are pairwise different, every node is the last one with its id. -/
theorem stands_of_nodup {store : Option Store} {depth : Nat} {stack : SourceStack} {d : Definition}
    {g : Graph} (h : c.assemble store depth stack d = .ok g) (hnodup : d.nodeIds.Nodup) :
    ∀ n ∈ d.nodes, c.Stands d g n := by
  intro n hn
  obtain ⟨before, after, hnodes⟩ := List.append_of_mem hn
  refine stands_of_last h hnodes fun m hm heq => ?_
  rw [Definition.nodeIds, hnodes, List.map_append, List.map_cons] at hnodup
  have hnot := (List.nodup_cons.1 (List.nodup_append.1 hnodup).2.1).1
  exact hnot (heq ▸ List.mem_map_of_mem hm)

end Compiler

/-- **The nodes of a definition and their ids.** A definition that is read from a mapping has one
node for each entry of its nodes, in the order in which they are written, and no id is a marker. If
no key of these entries is the same as another one, the ids are pairwise different exactly where the
keys have their names apart. In every graph that the definition is assembled to, the last node with
an id stands under it, so that the graph has all declared nodes where the ids are pairwise
different. -/
theorem Definition.one_node_for_each_entry {root : List (Node × Node)} {d : Definition}
    (hroot : (Node.mapping root).Distinct) (h : Definition.ofNode (.mapping root) = .ok d) :
    ∃ entries, Node.lookup? root "nodes" = some (.mapping entries) ∧ entries ≠ [] ∧
      List.Forall₂ DeclaredBy entries d.nodes ∧
      (d.nodeIds.Nodup ↔ NamesApart entries) ∧
      ∀ (c : Compiler) (store : Option Store) (depth : Nat) (stack : SourceStack) (g : Graph),
        c.assemble store depth stack d = .ok g →
          (∀ before n after, d.nodes = before ++ n :: after → (∀ m ∈ after, m.id ≠ n.id) →
            c.Stands d g n) ∧
          (NamesApart entries → ∀ n ∈ d.nodes, c.Stands d g n) := by
  obtain ⟨entries, hentries, hne, hdeclared⟩ := exists_entries_of_ofNode h
  have hkeys := pairwise_keys_of_lookup? hroot hentries
  have hnodup := nodup_nodeIds_iff hkeys hdeclared
  refine ⟨entries, hentries, hne, hdeclared, hnodup, fun c store depth stack g hg => ⟨?_, ?_⟩⟩
  · exact fun before n after hnodes hlast => Compiler.stands_of_last hg hnodes hlast
  · exact fun hapart => Compiler.stands_of_nodup hg (hnodup.2 hapart)

/-! ## Keys of several kinds -/

/-- A node that stands is executed unless the fields that settle it are there, or in any case. -/
theorem Compiler.Stands.skipFields {c : Compiler} {d : Definition} {g : Graph} {n : NodeDecl}
    {made : GraphNode} (h : c.Stands d g n)
    (hmade : GraphNode.lookup? g.nodes n.id = some made) :
    made.frame.policy.skipFields = [] ∨ made.frame.policy.skipFields = settledFields n := by
  obtain ⟨inner, env, found, _, _, hfound, hlookup, _⟩ := h.node
  obtain rfl := Option.some.inj (hmade.symm.trans hlookup)
  rw [frame_of_nodeOf hfound]
  cases hskip : isSkipped env n with
  | false => exact .inl rfl
  | true => exact .inr rfl

theorem Definition.exists_of_ofNode {n : Node} {d : Definition} (h : ofNode n = .ok d) :
    ∃ root, n = .mapping root := by
  cases n with
  | mapping root => exact ⟨root, rfl⟩
  | _ => cases h

/-- A text from which a definition with the given ids is read, and a graph is made of it. -/
theorem exists_graph_of_text (text : String) (ids : List String)
    (check : Definition → Graph → Bool)
    (h : ((Yaml.read? text).any fun root => (Definition.ofNode root).toOption.any fun d =>
      d.nodeIds == ids &&
        (bareCompiler.assemble none 1 .empty d).toOption.any (check d)) = true) :
    ∃ root d g, Yaml.read? text = some (.mapping root) ∧ (Node.mapping root).Distinct ∧
      Definition.ofNode (.mapping root) = .ok d ∧ d.nodeIds = ids ∧
      bareCompiler.assemble none 1 .empty d = .ok g ∧ check d g = true := by
  obtain ⟨n, hroot, h⟩ := (Option.any_eq_true _ _).1 h
  obtain ⟨d, hd, h⟩ := (Option.any_eq_true _ _).1 h
  obtain ⟨hids, h⟩ := (Bool.and_eq_true _ _).mp h
  obtain ⟨g, hg, hcheck⟩ := (Option.any_eq_true _ _).1 h
  have hread := eq_ok_of_toOption hd
  obtain ⟨root, rfl⟩ := Definition.exists_of_ofNode hread
  exact ⟨root, d, g, hroot, distinct_of_read? hroot, hread, beq_iff_eq.1 hids,
    eq_ok_of_toOption hg, hcheck⟩

/-- A definition whose keys are a text, a number and a boolean. -/
def mixedText : String :=
  "name: mixed
nodes: {a: {type: passthrough}, 1: {type: passthrough}, true: {type: passthrough}}
edges:
- from: a
  to: \"1\"
- from: \"1\"
  to: \"true\"
- from: \"true\"
  to: END"

/-- The names of the keys are apart, and the graph has all three nodes. -/
theorem mixed_keys_stand_apart :
    ∃ root entries d g, Yaml.read? mixedText = some (.mapping root) ∧
      Node.lookup? root "nodes" = some (.mapping entries) ∧
      Definition.ofNode (.mapping root) = .ok d ∧ d.nodeIds = ["a", "1", "true"] ∧
      Definition.NamesApart entries ∧ bareCompiler.assemble none 1 .empty d = .ok g ∧
      ∀ n ∈ d.nodes, bareCompiler.Stands d g n := by
  obtain ⟨root, d, g, hroot, hdistinct, hd, hids, hg, _⟩ :=
    exists_graph_of_text mixedText ["a", "1", "true"] (fun _ _ => true) (by decide +kernel)
  obtain ⟨entries, hentries, _, _, hiff, hgraph⟩ :=
    Definition.one_node_for_each_entry hdistinct hd
  have hapart : Definition.NamesApart entries := hiff.1 (hids ▸ by decide)
  exact ⟨root, entries, d, g, hroot, hentries, hd, hids, hapart, hg,
    (hgraph bareCompiler none 1 .empty g hg).2 hapart⟩

/-- A definition whose keys are a number and the text that is written like it. The nodes write
different fields. -/
def twinsText : String :=
  "name: twins
nodes:
  1: {type: passthrough, set: {x: 1}}
  \"1\": {type: passthrough, set: {y: 2}}
edges:
- from: \"1\"
  to: END"

/-- **Two nodes have one id.** The definition is read and a graph is made of it, in which the first
node is lost. -/
theorem twins_have_one_id :
    ∃ root d g, Yaml.read? twinsText = some (.mapping root) ∧ (Node.mapping root).Distinct ∧
      Definition.ofNode (.mapping root) = .ok d ∧ d.nodeIds = ["1", "1"] ∧
      bareCompiler.assemble none 1 .empty d = .ok g ∧
      ∃ n ∈ d.nodes, ¬ bareCompiler.Stands d g n := by
  obtain ⟨root, d, g, hroot, hdistinct, hd, hids, hg, hlost⟩ :=
    exists_graph_of_text twinsText ["1", "1"]
      (fun d g => d.nodes.any fun n => Compiler.settledFields n == ["x"] &&
        (GraphNode.lookup? g.nodes n.id).any fun made => made.frame.policy.skipFields == ["y"])
      (by decide +kernel)
  refine ⟨root, d, g, hroot, hdistinct, hd, hids, hg, ?_⟩
  obtain ⟨n, hn, hlost⟩ := List.any_eq_true.1 hlost
  obtain ⟨hsettled, hlost⟩ := (Bool.and_eq_true _ _).mp hlost
  obtain ⟨made, hmade, hskipped⟩ := (Option.any_eq_true _ _).1 hlost
  refine ⟨n, hn, fun hstands => ?_⟩
  have hfields := hstands.skipFields hmade
  rw [beq_iff_eq.1 hsettled, beq_iff_eq.1 hskipped] at hfields
  revert hfields
  decide

end WorkflowGraph
