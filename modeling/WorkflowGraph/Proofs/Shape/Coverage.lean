import Mathlib.Data.List.Find
import WorkflowGraph.Proofs.Compiler.Assemble
import WorkflowGraph.Proofs.Condition.Lookups
import WorkflowGraph.Proofs.Shape.Drafting

/-!
# What routing reads and what a shape lists

The transition of a node depends on a state through the paths of its conditions or the field of its
router, and through nothing else (`Transition.choose_congr`). An inferred shape lists the field that
such a path starts at, unless the path is taken for another one when it is listed: a path below a
field `state` is listed without it, and the field of a router is looked up by its segments but
listed as a whole (`Transition.overlooked`). These are all cases in which a shape can miss what
routing reads.
-/

set_option autoImplicit false

namespace WorkflowGraph

/-! ## What a transition looks up -/

namespace Transition

/-- The segments of the paths that a transition reads. -/
def lookups : Transition → List (List String)
  | .direct _ => []
  | .conditional branches _ => branches.flatMap fun b => b.1.expr.lookups
  | .route field _ _ => [Path.segments field]

/-- The lookups in whose place a shape lists another field. -/
def overlooked : Transition → List (List String)
  | .direct _ => []
  | .conditional branches _ =>
    branches.flatMap fun b => b.1.expr.lookups.filter fun path => Expr.withoutState path != path
  | .route field _ _ => if field.toList.contains '.' then [Path.segments field] else []

theorem overlooked_subset (t : Transition) : t.overlooked ⊆ t.lookups := by
  intro path hpath
  cases t with
  | direct target => cases hpath
  | conditional branches fallback =>
    obtain ⟨b, hb, hpath⟩ := List.mem_flatMap.1 hpath
    exact List.mem_flatMap.2 ⟨b, hb, (List.mem_filter.1 hpath).1⟩
  | route field routes fallback =>
    rw [overlooked] at hpath
    split at hpath
    · exact hpath
    · cases hpath

/-- **A transition depends on a state only through its lookups.** -/
theorem choose_congr {t : Transition} {fields fields' : Fields} (node : String)
    (h : ∀ path ∈ t.lookups, fields.follow? path = fields'.follow? path) :
    t.choose node fields = t.choose node fields' := by
  cases t with
  | direct target => rfl
  | conditional branches fallback =>
    have hfind : (branches.find? fun b => b.1.holds fields) =
        branches.find? fun b => b.1.holds fields' := by
      refine List.find?_congr fun b hb => ?_
      unfold Condition.holds
      rw [Expr.eval_congr fun path hpath => h path (List.mem_flatMap.2 ⟨b, hb, hpath⟩)]
    unfold choose
    dsimp only
    rw [hfind]
  | route field routes fallback =>
    have hat : fields.at? field = fields'.at? field := h _ List.mem_cons_self
    unfold choose
    dsimp only
    rw [hat]

end Transition

namespace TransitionTable

/-- The segments of the paths that the transition of a node reads. -/
def lookups (t : TransitionTable) (node : String) : List (List String) :=
  (t.transition? node).toList.flatMap Transition.lookups

/-- The lookups of a node in whose place a shape lists another field. -/
def overlooked (t : TransitionTable) (node : String) : List (List String) :=
  (t.transition? node).toList.flatMap Transition.overlooked

theorem overlooked_subset {t : TransitionTable} {node : String} :
    t.overlooked node ⊆ t.lookups node := by
  intro path hpath
  obtain ⟨transition, htransition, hover⟩ := List.mem_flatMap.1 hpath
  exact List.mem_flatMap.2 ⟨transition, htransition, transition.overlooked_subset hover⟩

theorem next_congr {t : TransitionTable} {node : String} {fields fields' : Fields}
    (h : ∀ path ∈ t.lookups node, fields.follow? path = fields'.follow? path) :
    t.next node fields = t.next node fields' := by
  unfold next
  unfold lookups at h
  split
  · rfl
  · next transition htransition =>
    rw [htransition] at h
    rw [Transition.choose_congr node fun path hpath => h path (by simpa using hpath)]

end TransitionTable

/-! ## What is listed for it -/

/-- Every condition that is gathered has been read from an edge. By induction on the edges. -/
theorem Outgoing.exists_edge_of_gather {node : String} {edges : List (Nat × EdgeDecl)}
    {out : Outgoing} {b : Condition × Target} (hb : b ∈ (gather node edges out).branches) :
    b ∈ out.branches ∨
      ∃ p ∈ edges, ∃ source, p.2.condition = some source ∧ Condition.parse source = .ok b.1 := by
  induction edges generalizing out with
  | nil => exact .inl hb
  | cons p rest ih =>
    have hrest (out' : Outgoing) (hb : b ∈ (gather node rest out').branches) :
        b ∈ out'.branches ∨ ∃ q ∈ p :: rest, ∃ source,
          q.2.condition = some source ∧ Condition.parse source = .ok b.1 :=
      (ih hb).imp_right fun ⟨q, hq, hsource⟩ => ⟨q, List.mem_cons_of_mem _ hq, hsource⟩
    unfold gather at hb
    split at hb
    · split at hb
      · exact .inl hb
      · exact (hrest _ hb :)
    · next source hsource =>
      split at hb
      · next c hc =>
        refine (hrest _ hb).elim (fun hb => ?_) .inr
        rcases List.mem_append.1 hb with hb | hb
        · exact .inl hb
        · obtain ⟨_, _, rfl⟩ := List.mem_map.1 hb
          exact .inr ⟨p, List.mem_cons_self, source, hsource, hc⟩
      · exact (hrest _ hb :)

/-- A transition made from edges reads a state only through the conditions of the edges. -/
theorem Transition.exists_edge_of_ofEdges {node : String} {edges : List (Nat × EdgeDecl)}
    {t : Transition} (h : (Transition.ofEdges node edges).1 = some t) :
    (∃ target, t = .direct target) ∨
      ∃ branches fallback, t = .conditional branches fallback ∧
        ∀ b ∈ branches, ∃ p ∈ edges, ∃ source,
          p.2.condition = some source ∧ Condition.parse source = .ok b.1 := by
  unfold Transition.ofEdges at h
  dsimp only at h
  split at h
  · cases h
  · split at h
    · cases h
      exact .inl ⟨_, rfl⟩
    · split at h <;> cases h
    · cases h
      exact .inr ⟨_, _, rfl, fun b hb =>
        (Outgoing.exists_edge_of_gather hb).resolve_left List.not_mem_nil⟩

/-- A lookup depends on a state only through the field that it starts at. -/
theorem Fields.follow?_congr {path : List String} {fields fields' : Fields}
    (h : ∀ first ∈ path.head?, Dict.get? fields first = Dict.get? fields' first) :
    fields.follow? path = fields'.follow? path := by
  cases path with
  | nil => rfl
  | cons first rest => rw [follow?, follow?, h first rfl]

namespace StateShape

/-- Whether the field that a lookup starts at is listed in a shape. -/
def Covers (shape : StateShape) (path : List String) : Prop :=
  ∀ field ∈ path.head?, (shape.get? field).isSome

/-- The state in which a lookup, and nothing else, leads to a value. -/
def leading : List String → Value
  | [] => .null
  | segment :: rest => .object [(segment, leading rest)]

theorem follow?_leading (path : List String) : (leading path).follow? path = some .null := by
  induction path with
  | nil => rfl
  | cons segment rest ih =>
    rw [leading, Value.follow?, Value.step?, Dict.get?_cons, if_pos rfl, Option.bind_some, ih]

/-- A lookup that a shape does not cover can find a value or none in states that agree on the
fields of the shape. -/
theorem covers_of_follow?_eq {shape : StateShape} {path : List String}
    (h : ∀ fields fields' : Fields,
      (∀ field, (shape.get? field).isSome → Dict.get? fields field = Dict.get? fields' field) →
        fields.follow? path = fields'.follow? path) : shape.Covers path := by
  intro first hfirst
  by_contra hnone
  obtain ⟨rest, rfl⟩ : ∃ rest, path = first :: rest := List.head?_eq_some_iff.1 hfirst
  have hsame := h [] [(first, leading rest)] fun field hfield => by
    have hne : first ≠ field := fun heq => hnone (heq ▸ hfield)
    rw [Dict.get?_nil, Dict.get?_cons, if_neg hne, Dict.get?_nil]
  rw [Fields.follow?, Fields.follow?, Dict.get?_nil, Dict.get?_cons, if_pos rfl, Option.bind_some,
    follow?_leading] at hsame
  cases hsame

end StateShape

namespace Definition

variable {d : Definition} {shape : StateShape}

/-- A path of a condition is listed as if it had been written, so a start `state` is left out of
it for a second time. -/
theorem covers_of_edge (hshape : StateShape.infer d = .ok shape) {e : EdgeDecl} (he : e ∈ d.edges)
    {source : String} (hsource : e.condition = some source) {c : Condition}
    (hc : Condition.parse source = .ok c) {path : List String} (hpath : path ∈ c.expr.lookups) :
    shape.Covers (Expr.withoutState path) := by
  unfold Condition.parse at hc
  split at hc
  · cases hc
  · next expr hexpr =>
    cases hc
    have hplain := Expr.plain_of_parse hexpr path hpath
    have huse : FieldUse.input (String.intercalate "." path) e.source ∈ d.uses := by
      refine List.mem_append_right _ (List.mem_flatMap.2 ⟨e, he, ?_⟩)
      rw [hsource, Option.toList_some, List.flatMap_singleton, Condition.pathsOf, hexpr]
      dsimp only
      rw [expr.paths_eq, List.map_map]
      exact List.mem_map.2 ⟨path, hpath, rfl⟩
    intro field hfield
    refine (StateShape.isSome_get?_iff hshape).2 ⟨_, huse, ?_⟩
    show Path.root (String.intercalate "." path) = field
    rw [Path.root, Path.segments_intercalate hplain, List.headD_eq_head?_getD,
      Option.mem_def.1 hfield, Option.getD_some]

theorem listed_of_router (hshape : StateShape.infer d = .ok shape) {n : NodeDecl}
    (hn : n ∈ d.nodes) {spec : RouterSpec} (hkind : n.kind = .router spec) :
    (shape.get? n.routeField).isSome := by
  refine (StateShape.isSome_get?_iff hshape).2
    ⟨.implicit n.routeField .string .overwrite n.id, ?_, rfl⟩
  refine List.mem_append_left _ (List.mem_flatMap.2 ⟨n, hn, ?_⟩)
  rw [hkind]
  simp [NodeDecl.uses, NodeDecl.routeField]

/-- What a transition reads is covered by the shape, unless it is overlooked. -/
theorem covers_or_overlooked (hshape : StateShape.infer d = .ok shape) {n : NodeDecl}
    (hn : n ∈ d.nodes) {t : Transition} (ht : (d.transitionOf n).1 = some t) {path : List String}
    (hpath : path ∈ t.lookups) : shape.Covers path ∨ path ∈ t.overlooked := by
  unfold transitionOf at ht
  split at ht
  · next spec hkind =>
    cases ht
    obtain rfl := List.mem_singleton.1 hpath
    by_cases hdot : n.routeField.toList.contains '.'
    · right
      rw [Transition.ofRoutes, Transition.overlooked, if_pos hdot]
      exact List.mem_cons_self
    · left
      rw [Path.segments_of_not_mem (by simpa using hdot)]
      intro field hfield
      obtain rfl := Option.some.inj hfield
      exact listed_of_router hshape hn hkind
  · next hkind =>
    obtain ⟨target, rfl⟩ | ⟨branches, fallback, rfl, hbranches⟩ :=
      Transition.exists_edge_of_ofEdges ht
    · cases hpath
    · obtain ⟨b, hb, hpath⟩ := List.mem_flatMap.1 hpath
      obtain ⟨p, hp, source, hsource, hparse⟩ := hbranches b hb
      have hedge : p.2 ∈ d.edges := (List.of_mem_zip (mem_indexedEdges_of_mem_edgesOf hp)).2
      have hcovers := covers_of_edge hshape hedge hsource hparse hpath
      by_cases hstate : Expr.withoutState path = path
      · exact .inl (hstate ▸ hcovers)
      · refine .inr (List.mem_flatMap.2 ⟨b, hb, List.mem_filter.2 ⟨hpath, ?_⟩⟩)
        exact bne_iff_ne.2 hstate

end Definition

/-! ## Compiled graphs -/

namespace Compiler

variable {c : Compiler} {store : Option Store} {depth : Nat} {stack : SourceStack}
  {d : Definition} {g : Graph}

theorem covers_or_overlooked_of_assemble (h : c.assemble store depth stack d = .ok g)
    {node : String} {path : List String} (hpath : path ∈ g.frame.table.lookups node) :
    g.frame.shape.Covers path ∨ path ∈ g.frame.table.overlooked node := by
  obtain ⟨_, _, _, hlinked⟩ := linked_of_assemble h
  obtain ⟨t, ht, hpath⟩ := List.mem_flatMap.1 hpath
  rw [Option.mem_toList] at ht
  have hget : Dict.get? d.transitions node = some t := by
    rw [← (TransitionTable.madeOf hlinked.table).transitions]
    exact ht
  obtain ⟨n, hn, _, hmade⟩ := Definition.exists_node_of_get?_transitions hget
  refine (Definition.covers_or_overlooked hlinked.shape hn hmade hpath).imp_right fun hover => ?_
  exact List.mem_flatMap.2 ⟨t, Option.mem_toList.2 ht, hover⟩

/-- **Routing reads what the shape lists and what it overlooks.** In a compiled graph, the node
that comes next is the same in any two states that agree on the fields of the shape and on the
fields that overlooked lookups start at. The fields of the shape alone decide what routing looks
up if and only if they are also the fields that overlooked lookups start at. -/
theorem routing_covered_unless_overlooked (h : c.assemble store depth stack d = .ok g) :
    (∀ fields fields' : Fields, ∀ node,
      (∀ field, ((g.frame.shape.get? field).isSome ∨
          ∃ path ∈ g.frame.table.overlooked node, path.head? = some field) →
        Dict.get? fields field = Dict.get? fields' field) →
      g.frame.table.next node fields = g.frame.table.next node fields') ∧
    ∀ node,
      (∀ fields fields' : Fields,
        (∀ field, (g.frame.shape.get? field).isSome →
          Dict.get? fields field = Dict.get? fields' field) →
        ∀ path ∈ g.frame.table.lookups node, fields.follow? path = fields'.follow? path) ↔
      ∀ path ∈ g.frame.table.overlooked node, g.frame.shape.Covers path := by
  refine ⟨fun fields fields' node hagree => ?_, fun node => ⟨fun hsame path hpath => ?_,
    fun hcovers fields fields' hagree path hpath => ?_⟩⟩
  · refine TransitionTable.next_congr fun path hpath => Fields.follow?_congr fun first hfirst => ?_
    rcases covers_or_overlooked_of_assemble h hpath with hcovers | hover
    · exact hagree first (.inl (hcovers first hfirst))
    · exact hagree first (.inr ⟨path, hover, hfirst⟩)
  · refine StateShape.covers_of_follow?_eq fun fields fields' hagree => ?_
    exact hsame fields fields' hagree path (TransitionTable.overlooked_subset hpath)
  · have hcovered : g.frame.shape.Covers path :=
      (covers_or_overlooked_of_assemble h hpath).elim id (hcovers path)
    exact Fields.follow?_congr fun first hfirst => hagree first (hcovered first hfirst)

end Compiler

/-- A node that leads to the left where a condition holds, and else to the right. -/
def fork (condition : String) : Definition where
  version := none
  name := "fork"
  description := none
  entry := none
  defaults := .standard
  tools := []
  nodes := ["pick", "left", "right"].map fun id => ⟨id, .passthrough ⟨[], [], []⟩, .unset⟩
  edges := [⟨"pick", .one "left", some condition⟩, ⟨"pick", .one "right", none⟩,
    ⟨"left", .one "END", none⟩, ⟨"right", .one "END", none⟩]
  loopLimits := []
  checkpoint := none

/-- The graph that a fork is compiled to, whose condition is a single path. -/
def forkGraph (source : String) (path : List String) (listed : String) : Graph where
  frame :=
    { name := "fork"
      table := ⟨"pick", [("left", .direct .finish),
        ("pick", .conditional [(⟨source, .path path⟩, .node "left")] (some (.node "right"))),
        ("right", .direct .finish)], [], []⟩
      shape := ⟨[(listed, ⟨.any, .overwrite, [], .input⟩)]⟩
      config := .standard
      store := none }
  nodes := ["pick", "left", "right"].map fun id =>
    (id, .leaf ⟨id, none, ⟨.fail, none, none, [], []⟩⟩ (.passthrough ⟨[], [], []⟩))

/-- Nothing is overlooked in a fork that reads a single field, so it is decided by that field. -/
theorem fork_decided_by_listed_field :
    bareCompiler.assemble none 1 .empty (fork "state.flag") =
        .ok (forkGraph "state.flag" ["flag"] "flag") ∧
      (forkGraph "state.flag" ["flag"] "flag").frame.table.next "pick"
          [("flag", .bool true), ("other", .int 1)] =
        (forkGraph "state.flag" ["flag"] "flag").frame.table.next "pick"
          [("flag", .bool true)] := by
  have hg : bareCompiler.assemble none 1 .empty (fork "state.flag") =
      .ok (forkGraph "state.flag" ["flag"] "flag") := by
    with_unfolding_all rfl
  have hover : (forkGraph "state.flag" ["flag"] "flag").frame.table.overlooked "pick" = [] := by
    decide
  refine ⟨hg, (Compiler.routing_covered_unless_overlooked hg).1 _ _ "pick" fun field hfield => ?_⟩
  rcases hfield with hlisted | ⟨path, hpath, _⟩
  · obtain rfl : "flag" = field := by
      by_contra hne
      simp [forkGraph, StateShape.get?, Dict.get?_cons, hne] at hlisted
    rfl
  · rw [hover] at hpath
    cases hpath

/-- A field `state` of the state is read but not listed: two states that agree on all that the shape
lists are taken to different nodes. -/
theorem fork_reads_unlisted_field :
    bareCompiler.assemble none 1 .empty (fork "state.state.x") =
        .ok (forkGraph "state.state.x" ["state", "x"] "x") ∧
      (∀ field, ((forkGraph "state.state.x" ["state", "x"] "x").frame.shape.get? field).isSome →
        Dict.get? ([] : Fields) field =
          Dict.get? [("state", Value.object [("x", .bool true)])] field) ∧
      (forkGraph "state.state.x" ["state", "x"] "x").frame.table.next "pick" [] ≠
        (forkGraph "state.state.x" ["state", "x"] "x").frame.table.next "pick"
          [("state", .object [("x", .bool true)])] := by
  refine ⟨by with_unfolding_all rfl, fun field hlisted => ?_, ?_⟩
  · obtain rfl : "x" = field := by
      by_contra hne
      simp [forkGraph, StateShape.get?, Dict.get?_cons, hne] at hlisted
    rfl
  · have hright : (forkGraph "state.state.x" ["state", "x"] "x").frame.table.next "pick" [] =
        .ok (some "right") := by
      with_unfolding_all rfl
    have hleft : (forkGraph "state.state.x" ["state", "x"] "x").frame.table.next "pick"
        [("state", .object [("x", .bool true)])] = .ok (some "left") := by
      with_unfolding_all rfl
    rw [hright, hleft]
    decide

end WorkflowGraph
