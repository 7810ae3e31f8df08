import Mathlib.Data.List.Dedup
import Mathlib.Logic.Relation
import WorkflowGraph.Definition.Validation
import WorkflowGraph.Proofs.Dict
import WorkflowGraph.Transition.Table

/-!
# Where the transitions of a valid definition lead

A transition is made from the edges of a node or from the routes of a router. In a definition
without faults every name that these mention is the end marker or a node, so that no transition
leads anywhere else (`Definition.transitions_lead_within`). An edge has at least one target, so
that a node without errors in its edges has a transition (`Definition.isSome_transitionOf`).
-/

set_option autoImplicit false

namespace WorkflowGraph

/-- Whether a target is the end or one of the given nodes. -/
def Target.LeadsWithin (ids : List String) (t : Target) : Prop := ∀ id, t = .node id → id ∈ ids

theorem Target.leadsWithin_ofName {ids : List String} {name : String}
    (h : name = endMarker ∨ name ∈ ids) : (Target.ofName name).LeadsWithin ids := by
  intro id hid
  unfold Target.ofName at hid
  split at hid
  · simp at hid
  · next hend =>
    obtain rfl := Target.node.inj hid
    rcases h with h | h
    · exact absurd h hend
    · exact h

/-! ## Choices -/

namespace Transition

/-- What a transition chooses is one of its targets. -/
theorem mem_targets_of_choose {node : String} {fields : Fields} {t : Transition} {x : Target}
    (h : t.choose node fields = .ok x) : x ∈ t.targets := by
  cases t with
  | direct target =>
    cases h
    exact List.mem_cons_self
  | conditional branches fallback =>
    unfold choose at h
    dsimp only at h
    cases hfind : branches.find? fun b => b.1.holds fields with
    | none =>
      rw [hfind] at h
      cases fallback with
      | none => cases h
      | some target =>
        cases h
        exact List.mem_append_right _ List.mem_cons_self
    | some b =>
      rw [hfind] at h
      cases h
      exact List.mem_append_left _ (List.mem_map.2 ⟨b, List.mem_of_find?_eq_some hfind, rfl⟩)
  | route field routes fallback =>
    unfold choose at h
    dsimp only at h
    cases hroute : (routeText? (fields.at? field)).bind routes.get? with
    | none =>
      rw [hroute] at h
      cases fallback with
      | none => cases h
      | some target =>
        cases h
        exact List.mem_append_right _ List.mem_cons_self
    | some target =>
      rw [hroute] at h
      cases h
      obtain ⟨key, _, hkey⟩ := Option.bind_eq_some_iff.1 hroute
      exact List.mem_append_left _ (List.mem_map.2 ⟨_, Dict.mem_of_get? hkey, rfl⟩)

/-- A transition fails to choose in two ways only: none of its conditions holds and it has no
fallback, or the value of a router has no route and there is no fallback either. -/
theorem choose_eq_error {node : String} {fields : Fields} {t : Transition} {e : RunError}
    (h : t.choose node fields = .error e) :
    (∃ branches, t = .conditional branches none ∧ e = .noMatchingTransition node ∧
        ∀ b ∈ branches, b.1.holds fields = false) ∨
      ∃ field routes value, t = .route field routes none ∧ e = .unmatchedRoute node value := by
  cases t with
  | direct target => cases h
  | conditional branches fallback =>
    unfold choose at h
    dsimp only at h
    cases hfind : branches.find? fun b => b.1.holds fields with
    | some b =>
      rw [hfind] at h
      cases h
    | none =>
      rw [hfind] at h
      cases fallback with
      | some target => cases h
      | none =>
        cases h
        refine .inl ⟨branches, rfl, rfl, fun b hb => ?_⟩
        simpa using List.find?_eq_none.1 hfind b hb
  | route field routes fallback =>
    unfold choose at h
    dsimp only at h
    cases hroute : (routeText? (fields.at? field)).bind routes.get? with
    | some target =>
      rw [hroute] at h
      cases h
    | none =>
      rw [hroute] at h
      cases fallback with
      | some target => cases h
      | none =>
        cases h
        exact .inr ⟨field, routes, _, rfl, rfl⟩

end Transition

theorem TransitionTable.mem_successors_of_next {table : TransitionTable} {node next : String}
    {fields : Fields} (h : table.next node fields = .ok (some next)) :
    next ∈ table.successors node := by
  unfold TransitionTable.next transition? at h
  unfold successors successorsIn
  cases ht : table.transitions.get? node with
  | none => simp [ht] at h
  | some t =>
    simp only [ht] at h ⊢
    cases hx : t.choose node fields with
    | error e => simp [hx, Except.map] at h
    | ok x =>
      simp only [hx, Except.map, Except.ok.injEq] at h
      exact List.mem_filterMap.2 ⟨x, Transition.mem_targets_of_choose hx, h⟩

/-! ## Transitions made from edges -/

namespace Outgoing

/-- What holds of the targets of all edges holds of the targets that are gathered. -/
theorem forall_gather {P : Target → Prop} {node : String} {edges : List (Nat × EdgeDecl)}
    (hedges : ∀ p ∈ edges, ∀ name ∈ p.2.targets, P (.ofName name)) {out : Outgoing}
    (hbranches : ∀ b ∈ out.branches, P b.2) (hplain : ∀ t ∈ out.plain, P t) :
    (∀ b ∈ (gather node edges out).branches, P b.2) ∧
      ∀ t ∈ (gather node edges out).plain, P t := by
  induction edges generalizing out with
  | nil => exact ⟨hbranches, hplain⟩
  | cons p rest ih =>
    obtain ⟨index, e⟩ := p
    have hrest (p : Nat × EdgeDecl) (hp : p ∈ rest) := hedges p (List.mem_cons_of_mem _ hp)
    have hfirst := hedges _ List.mem_cons_self
    unfold gather
    split
    · split
      · exact ⟨hbranches, hplain⟩
      · refine ih hrest ?_ ?_
        · exact hbranches
        · intro t ht
          rcases List.mem_append.1 ht with ht | ht
          · exact hplain t ht
          · obtain ⟨name, hname, rfl⟩ := List.mem_map.1 ht
            exact hfirst name hname
    · split
      · refine ih hrest ?_ ?_
        · intro b hb
          rcases List.mem_append.1 hb with hb | hb
          · exact hbranches b hb
          · obtain ⟨name, hname, rfl⟩ := List.mem_map.1 hb
            exact hfirst name hname
        · exact hplain
      · refine ih hrest ?_ ?_
        · exact hbranches
        · exact hplain

theorem errors_subset_gather (node : String) (edges : List (Nat × EdgeDecl)) (out : Outgoing) :
    out.errors ⊆ (gather node edges out).errors := by
  induction edges generalizing out with
  | nil => exact List.Subset.refl _
  | cons p rest ih =>
    unfold gather
    split
    · split
      · exact List.Subset.refl _
      · refine List.Subset.trans ?_ (ih _)
        exact List.Subset.refl _
    · split
      · refine List.Subset.trans ?_ (ih _)
        exact List.Subset.refl _
      · refine List.Subset.trans ?_ (ih _)
        exact List.subset_append_left _ _

/-- Whether edges amount to at least one target. -/
def HasTarget (out : Outgoing) : Prop := out.branches ≠ [] ∨ out.plain ≠ []

/-- Where every edge has a target, edges amount to a target unless an error has been found or
one of them is ambiguous. -/
theorem hasTarget_gather {node : String} {edges : List (Nat × EdgeDecl)}
    (hedges : ∀ p ∈ edges, p.2.targets ≠ []) {out : Outgoing}
    (h : out.HasTarget ∨ edges ≠ []) (herrors : (gather node edges out).errors = []) :
    (gather node edges out).ambiguous = true ∨ (gather node edges out).HasTarget := by
  induction edges generalizing out with
  | nil => exact .inr (h.resolve_right fun hne => hne rfl)
  | cons p rest ih =>
    obtain ⟨index, e⟩ := p
    have hrest (p : Nat × EdgeDecl) (hp : p ∈ rest) := hedges p (List.mem_cons_of_mem _ hp)
    have hfirst : e.targets ≠ [] := hedges _ List.mem_cons_self
    unfold gather at herrors ⊢
    cases hcond : e.condition with
    | none =>
      simp only [hcond] at herrors ⊢
      split
      · exact .inl rfl
      · next hone =>
        rw [if_neg hone] at herrors
        refine ih hrest (.inl (.inr ?_)) herrors
        simpa using fun _ => hfirst
    | some source =>
      simp only [hcond] at herrors ⊢
      cases hparse : Condition.parse source with
      | ok c =>
        simp only [hparse] at herrors ⊢
        refine ih hrest (.inl (.inl ?_)) herrors
        simpa using fun _ => hfirst
      | error err =>
        simp only [hparse] at herrors ⊢
        have hmem := errors_subset_gather node rest
          { out with errors := out.errors ++ [.condition index node err] }
          (List.mem_append_right _ List.mem_cons_self)
        rw [herrors] at hmem
        simp at hmem

end Outgoing

/-- What holds of the targets of all edges holds of the targets of the transition that they
make. -/
theorem Transition.forall_targets_ofEdges {P : Target → Prop} {node : String}
    {edges : List (Nat × EdgeDecl)} {t : Transition}
    (hedges : ∀ p ∈ edges, ∀ name ∈ p.2.targets, P (.ofName name))
    (ht : (Transition.ofEdges node edges).1 = some t) : ∀ x ∈ t.targets, P x := by
  obtain ⟨hbranches, hplain⟩ : (∀ b ∈ (Outgoing.gather node edges .none).branches, P b.2) ∧
      ∀ x ∈ (Outgoing.gather node edges .none).plain, P x := by
    apply Outgoing.forall_gather hedges
    · simp [Outgoing.none]
    · simp [Outgoing.none]
  unfold Transition.ofEdges at ht
  dsimp only at ht
  split at ht
  · simp at ht
  · split at ht
    · next target rest _ hp =>
      obtain rfl := Option.some.inj ht
      intro x hx
      rw [List.mem_singleton.1 hx]
      exact hplain _ (hp ▸ List.mem_cons_self)
    · split at ht <;> simp at ht
    · obtain rfl := Option.some.inj ht
      intro x hx
      rcases List.mem_append.1 hx with hx | hx
      · obtain ⟨b, hb, rfl⟩ := List.mem_map.1 hx
        exact hbranches b hb
      · exact hplain x (List.mem_of_head? (Option.mem_toList.1 hx))

/-- Edges that all have a target make a transition where no error is found in them. -/
theorem Transition.isSome_ofEdges {node : String} {edges : List (Nat × EdgeDecl)}
    (hedges : ∀ p ∈ edges, p.2.targets ≠ [])
    (herrors : (Transition.ofEdges node edges).2 = []) :
    (Transition.ofEdges node edges).1.isSome := by
  unfold Transition.ofEdges at herrors ⊢
  dsimp only at herrors ⊢
  by_cases hone : ((Outgoing.gather node edges .none).ambiguous ||
      decide (1 < (Outgoing.gather node edges .none).plain.length)) = true
  · rw [if_pos hone] at herrors
    simp at herrors
  · rw [if_neg hone] at herrors ⊢
    cases hb : (Outgoing.gather node edges .none).branches with
    | cons => rfl
    | nil =>
      cases hp : (Outgoing.gather node edges .none).plain with
      | cons => rfl
      | nil =>
        simp only [hb, hp] at herrors
        by_cases hempty : edges.isEmpty
        · rw [if_pos hempty] at herrors
          simp at herrors
        · rw [if_neg hempty] at herrors
          have hne : edges ≠ [] := fun h => hempty (List.isEmpty_iff.2 h)
          rcases Outgoing.hasTarget_gather hedges (.inr hne) herrors with h | h | h
          · rw [h] at hone
            exact absurd rfl hone
          · exact absurd hb h
          · exact absurd hp h

/-! ## Definitions without faults -/

namespace Definition

variable {d : Definition}

theorem hasNode_iff {id : String} : d.hasNode id = true ↔ id ∈ d.nodeIds := by
  unfold hasNode node? nodeIds
  rw [List.find?_isSome, List.mem_map]
  simp

theorem mem_indexedEdges_of_mem_edgesOf {node : String} {p : Nat × EdgeDecl}
    (h : p ∈ d.edgesOf node) : p ∈ d.indexedEdges :=
  (List.mem_filter.1 h).1

theorem faults_eq_nil_iff : d.faults = [] ↔
    d.entryFaults = [] ∧ (∀ n ∈ d.nodes, d.nodeFaults n.id n.options false n.kind = []) ∧
      (∀ p ∈ d.indexedEdges, d.edgeFaults p.1 p.2 = []) ∧
      ∀ p ∈ d.loopLimits, d.limitFaults p.1 p.2 = [] := by
  simp only [faults, List.append_eq_nil_iff, List.flatMap_eq_nil_iff]
  tauto

/-- A limit that is declared for a node is not zero. -/
theorem declared_pos (hd : d.faults = []) {id : String} {n : Nat}
    (h : d.loopLimits.get? id = some n) : 0 < n := by
  have hfaults := (faults_eq_nil_iff.1 hd).2.2.2 _ (Dict.mem_of_get? h)
  unfold limitFaults at hfaults
  split at hfaults
  · cases hfaults
  · split at hfaults
    · cases hfaults
    · next hzero => exact Nat.pos_of_ne_zero (by simpa using hzero)

theorem entry_mem_nodeIds (hd : d.faults = []) {entry : String}
    (h : d.entryPoint? = some entry) : entry ∈ d.nodeIds := by
  have hfaults := (faults_eq_nil_iff.1 hd).1
  simp only [entryFaults, h, List.append_eq_nil_iff] at hfaults
  have hentry := hfaults.2
  split at hentry
  · next hnode => exact hasNode_iff.1 hnode
  · simp at hentry

theorem edge_targets (hd : d.faults = []) {p : Nat × EdgeDecl} (hp : p ∈ d.indexedEdges) :
    p.2.targets ≠ [] ∧ ∀ name ∈ p.2.targets, name = endMarker ∨ name ∈ d.nodeIds := by
  have hfaults := (faults_eq_nil_iff.1 hd).2.2.1 p hp
  simp only [edgeFaults, List.append_eq_nil_iff, List.flatMap_eq_nil_iff] at hfaults
  obtain ⟨⟨⟨_, hempty⟩, htargets⟩, _⟩ := hfaults
  refine ⟨fun h => ?_, fun name hname => ?_⟩
  · simp [h] at hempty
  · have hfault := htargets name hname
    unfold targetFaults at hfault
    split at hfault
    · simp at hfault
    · split at hfault
      · next hok =>
        rw [Bool.or_eq_true, beq_iff_eq, hasNode_iff] at hok
        exact hok
      · simp at hfault

theorem route_target {node route target : String}
    (h : d.routeFaults node route target = []) : target = endMarker ∨ target ∈ d.nodeIds := by
  unfold routeFaults at h
  split at h
  · next hok =>
    rw [Bool.or_eq_true, beq_iff_eq, hasNode_iff] at hok
    exact hok
  · simp at h

theorem routes_leadWithin (hd : d.faults = []) {node : NodeDecl} (hn : node ∈ d.nodes)
    {spec : RouterSpec} (hkind : node.kind = .router spec) :
    ∀ x ∈ (Transition.ofRoutes node spec).targets, x.LeadsWithin d.nodeIds := by
  have hfaults := (faults_eq_nil_iff.1 hd).2.1 node hn
  rw [hkind] at hfaults
  simp only [nodeFaults, routerFaults, List.append_eq_nil_iff, List.flatMap_eq_nil_iff] at hfaults
  obtain ⟨⟨⟨_, hroutes⟩, hdefault⟩, _⟩ := hfaults
  intro x hx
  rcases List.mem_append.1 hx with hx | hx
  · simp only [Dict.values, Dict.mapValues, List.map_map, List.mem_map] at hx
    obtain ⟨r, hr, rfl⟩ := hx
    exact Target.leadsWithin_ofName (route_target (hroutes r hr))
  · rw [Option.mem_toList, Option.map_eq_some_iff] at hx
    obtain ⟨name, hname, rfl⟩ := hx
    exact Target.leadsWithin_ofName (route_target (hdefault name (Option.mem_toList.2 hname)))

theorem transitionOf_leadsWithin (hd : d.faults = []) {node : NodeDecl} (hn : node ∈ d.nodes)
    {t : Transition} (ht : (d.transitionOf node).1 = some t) :
    ∀ x ∈ t.targets, x.LeadsWithin d.nodeIds := by
  have hedges : ∀ p ∈ d.edgesOf node.id, ∀ name ∈ p.2.targets,
      (Target.ofName name).LeadsWithin d.nodeIds := by
    intro p hp name hname
    have htargets := (edge_targets hd (mem_indexedEdges_of_mem_edgesOf hp)).2
    exact Target.leadsWithin_ofName (htargets name hname)
  unfold transitionOf at ht
  split at ht
  · next spec hkind =>
    obtain rfl := Option.some.inj ht
    exact routes_leadWithin hd hn hkind
  · exact Transition.forall_targets_ofEdges hedges ht

theorem isSome_transitionOf (hd : d.faults = []) {node : NodeDecl}
    (herrors : (d.transitionOf node).2 = []) : (d.transitionOf node).1.isSome := by
  unfold transitionOf at herrors ⊢
  split at herrors
  · rfl
  · next hkind =>
    apply Transition.isSome_ofEdges _ herrors
    intro p hp
    exact (edge_targets hd (mem_indexedEdges_of_mem_edgesOf hp)).1

/-! ## The dictionary of transitions -/

/-- The step that takes the transition of a node into the dictionary. -/
def addTransition (d : Definition) (acc : Dict Transition) (node : NodeDecl) : Dict Transition :=
  match (d.transitionOf node).1 with
  | some t => Dict.put acc node.id t
  | none => acc

theorem get?_foldl_addTransition {nodes : List NodeDecl} {acc : Dict Transition} {id : String}
    {t : Transition} (h : Dict.get? (nodes.foldl d.addTransition acc) id = some t) :
    Dict.get? acc id = some t ∨
      ∃ node ∈ nodes, node.id = id ∧ (d.transitionOf node).1 = some t := by
  induction nodes generalizing acc with
  | nil => exact .inl h
  | cons node rest ih =>
    rcases ih h with hacc | ⟨other, hother, hid, ht⟩
    · unfold addTransition at hacc
      split at hacc
      · next u hu =>
        rw [Dict.get?_put] at hacc
        split at hacc
        · next hid =>
          cases hacc
          exact .inr ⟨node, List.mem_cons_self, hid, hu⟩
        · exact .inl hacc
      · exact .inl hacc
    · exact .inr ⟨other, List.mem_cons_of_mem _ hother, hid, ht⟩

theorem exists_node_of_get?_transitions {id : String} {t : Transition}
    (h : Dict.get? d.transitions id = some t) :
    ∃ node ∈ d.nodes, node.id = id ∧ (d.transitionOf node).1 = some t := by
  rcases get?_foldl_addTransition (d := d) h with h | h
  · simp at h
  · exact h

theorem rising_transitions (d : Definition) : d.transitions.Rising := by
  have hfold (nodes : List NodeDecl) (acc : Dict Transition) (h : acc.Rising) :
      (nodes.foldl d.addTransition acc).Rising := by
    induction nodes generalizing acc with
    | nil => exact h
    | cons node rest ih =>
      refine ih _ ?_
      unfold addTransition
      split
      · exact h.put _ _
      · exact h
  exact hfold d.nodes [] List.Pairwise.nil

/-- Nothing leaves the dictionary, and the transitions of all nodes come into it. -/
theorem isSome_get?_foldl_addTransition {nodes : List NodeDecl} {acc : Dict Transition}
    {id : String} (h : (Dict.get? acc id).isSome ∨
      ∃ node ∈ nodes, node.id = id ∧ (d.transitionOf node).1.isSome) :
    (Dict.get? (nodes.foldl d.addTransition acc) id).isSome := by
  induction nodes generalizing acc with
  | nil =>
    rcases h with h | ⟨node, hnode, _⟩
    · exact h
    · simp at hnode
  | cons node rest ih =>
    apply ih
    have hkept : (Dict.get? acc id).isSome → (Dict.get? (d.addTransition acc node) id).isSome := by
      intro hacc
      unfold addTransition
      split
      · exact Dict.isSome_get?_put (.inr hacc)
      · exact hacc
    rcases h with h | ⟨other, hother, hid, ht⟩
    · exact .inl (hkept h)
    · rcases List.mem_cons.1 hother with rfl | hother
      · obtain ⟨t, ht⟩ := Option.isSome_iff_exists.1 ht
        refine .inl ?_
        unfold addTransition
        rw [ht]
        exact Dict.isSome_get?_put (.inl hid)
      · exact .inr ⟨other, hother, hid, ht⟩

theorem successorsIn_subset (hd : d.faults = []) (node : String) :
    TransitionTable.successorsIn d.transitions node ⊆ d.nodeIds := by
  intro id hid
  unfold TransitionTable.successorsIn at hid
  split at hid
  · next t ht =>
    obtain ⟨decl, hdecl, _, htransition⟩ := exists_node_of_get?_transitions ht
    obtain ⟨x, hx, hname⟩ := List.mem_filterMap.1 hid
    apply transitionOf_leadsWithin hd hdecl htransition x hx
    cases x with
    | node other =>
      obtain rfl := Option.some.inj hname
      rfl
    | finish => simp [Target.node?] at hname
  · simp at hid

end Definition

end WorkflowGraph
