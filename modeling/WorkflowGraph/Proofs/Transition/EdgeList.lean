import WorkflowGraph.Proofs.Transition.Table

/-!
# The plain reading of the edge list

Read plainly, a node goes to the target of the first edge that leaves it and whose condition is
true, else to the target of its edge without condition, wherever that one stands. The table
regroups the edges of the whole list node by node, into branches and a fallback, and gives up a
node early where it is ambiguous. It comes to the same (`next_follows_edge_list`), since what is
gathered for a node are its conditional targets and its plain targets in their orders
(`Outgoing.gather_spec`), and a node is reported exactly when the plain reading leaves it
ambiguous or without edges.
-/

set_option autoImplicit false

namespace WorkflowGraph

/-! ## The reading -/

/-- Where a name leads: to a node, or nowhere at the end marker. -/
def landing (name : String) : Option String := if name = endMarker then none else some name

/-- Whether the text of a condition is true in a state. -/
def HoldsIn (fields : Fields) (source : String) : Bool :=
  match Condition.parse source with
  | .ok c => c.holds fields
  | .error _ => false

/-- The targets of conditional edges, each with its condition. -/
def conditionalTargets (edges : List EdgeDecl) : List (String × String) :=
  edges.flatMap fun e =>
    match e.condition with
    | some source => e.targets.map fun name => (source, name)
    | none => []

/-- The targets of edges without condition. -/
def plainTargets (edges : List EdgeDecl) : List String :=
  edges.flatMap fun e =>
    match e.condition with
    | some _ => []
    | none => e.targets

/-- The edges that leave a node, in the order of the list. -/
def Definition.leaving (d : Definition) (node : String) : List EdgeDecl :=
  d.edges.filter fun e => e.source == node

/-- The node that comes next by the plain reading of the edges that leave a node. -/
def nextByEdges (node : String) (edges : List EdgeDecl) (fields : Fields) :
    Except RunError (Option String) :=
  match (conditionalTargets edges).find? fun p => HoldsIn fields p.1 with
  | some p => .ok (landing p.2)
  | none =>
    match plainTargets edges with
    | name :: _ => .ok (landing name)
    | [] => .error (.noMatchingTransition node)

/-- The text by which a router compares a value: a text as it is, a number or a truth value as
its JSON text. -/
def routeKey? : Value → Option String
  | .text s => some s
  | .int n => some (Json.compact (.int n))
  | .float x => some (Json.compact (.float x))
  | .bool b => some (Json.compact (.bool b))
  | _ => none

/-- The node that comes next by the routes of a router, for the value at its route field. -/
def nextByRoutes (node : String) (spec : RouterSpec) (value : Option Value) :
    Except RunError (Option String) :=
  match ((value.bind routeKey?).bind spec.routes.get?).or spec.defaultRoute with
  | some name => .ok (landing name)
  | none => .error (.unmatchedRoute node ((value.bind routeKey?).getD "null"))

theorem node?_ofName (name : String) : (Target.ofName name).node? = landing name := by
  unfold Target.ofName landing
  split <;> rfl

theorem routeText?_eq (value : Option Value) : routeText? value = value.bind routeKey? := by
  cases value with
  | none => rfl
  | some v =>
    cases v with
    | bool b => cases b <;> rfl
    | _ => rfl

/-! ## Gathering -/

/-- The branch that a conditional target makes, where its condition can be read. -/
def branch? (p : String × String) : Option (Condition × Target) :=
  match Condition.parse p.1 with
  | .ok c => some (c, Target.ofName p.2)
  | .error _ => none

theorem conditionalTargets_cons (e : EdgeDecl) (rest : List EdgeDecl) :
    conditionalTargets (e :: rest) = conditionalTargets [e] ++ conditionalTargets rest := by
  simp [conditionalTargets]

theorem plainTargets_cons (e : EdgeDecl) (rest : List EdgeDecl) :
    plainTargets (e :: rest) = plainTargets [e] ++ plainTargets rest := by
  simp [plainTargets]

/-- Whether some edge without condition has several targets. -/
def Wide (edges : List (Nat × EdgeDecl)) : Prop :=
  ∃ p ∈ edges, p.2.condition = none ∧ 1 < p.2.targets.length

namespace Outgoing

variable {node : String} {edges : List (Nat × EdgeDecl)}

theorem ambiguous_gather (node : String) (h : Wide edges) (out : Outgoing) :
    (gather node edges out).ambiguous = true := by
  induction edges generalizing out with
  | nil =>
    obtain ⟨p, hp, _⟩ := h
    cases hp
  | cons p rest ih =>
    obtain ⟨index, e⟩ := p
    unfold gather
    by_cases hfirst : e.condition = .none ∧ 1 < e.targets.length
    · rw [hfirst.1]
      dsimp only
      rw [if_pos hfirst.2]
    · have hrest : Wide rest := by
        obtain ⟨p, hp, hwide⟩ := h
        rcases List.mem_cons.1 hp with rfl | hp
        · exact absurd hwide hfirst
        · exact ⟨p, hp, hwide⟩
      split
      · split
        · rfl
        · exact ih hrest _
      · split
        · exact ih hrest _
        · exact ih hrest _

/-- Unless an edge stands in the way, what is gathered are the plain targets and the branches of
the conditional ones, each in the order of the edges. -/
theorem gather_spec (node : String) (h : ¬ Wide edges) (out : Outgoing) :
    (gather node edges out).ambiguous = out.ambiguous ∧
      (gather node edges out).plain =
        out.plain ++ (plainTargets (edges.map Prod.snd)).map Target.ofName ∧
      (gather node edges out).branches =
        out.branches ++ (conditionalTargets (edges.map Prod.snd)).filterMap branch? := by
  induction edges generalizing out with
  | nil => simp [gather, plainTargets, conditionalTargets]
  | cons p rest ih =>
    obtain ⟨index, e⟩ := p
    have hrest : ¬ Wide rest := fun ⟨p, hp, hwide⟩ => h ⟨p, List.mem_cons_of_mem _ hp, hwide⟩
    rw [List.map_cons, plainTargets_cons, conditionalTargets_cons]
    unfold gather
    cases hcondition : e.condition with
    | none =>
      have hone : ¬ 1 < e.targets.length := fun hlt =>
        h ⟨(index, e), List.mem_cons_self, hcondition, hlt⟩
      have hplain : plainTargets [e] = e.targets := by simp [plainTargets, hcondition]
      have hconditional : conditionalTargets [e] = [] := by simp [conditionalTargets, hcondition]
      dsimp only
      rw [if_neg hone, hplain, hconditional]
      simpa using ih hrest { out with plain := out.plain ++ e.targets.map Target.ofName }
    | some source =>
      have hplain : plainTargets [e] = [] := by simp [plainTargets, hcondition]
      have hconditional : conditionalTargets [e] = e.targets.map fun name => (source, name) := by
        simp [conditionalTargets, hcondition]
      rw [hplain, hconditional, List.filterMap_append]
      cases hparse : Condition.parse source with
      | ok c =>
        have hbranches : (e.targets.map fun name => (source, name)).filterMap branch? =
            e.targets.map fun name => (c, Target.ofName name) := by
          rw [List.filterMap_map, ← List.filterMap_eq_map]
          congr 1
          funext name
          simp [branch?, hparse]
        dsimp only
        rw [hparse, hbranches]
        simpa using ih hrest
          { out with branches := out.branches ++ e.targets.map fun t => (c, Target.ofName t) }
      | error err =>
        have hbranches : (e.targets.map fun name => (source, name)).filterMap branch? = [] := by
          simp [List.filterMap_map, branch?, hparse, Function.comp_def]
        dsimp only
        rw [hparse, hbranches]
        simpa using ih hrest { out with errors := out.errors ++ [.condition index node err] }

theorem mem_errors_gather {out : Outgoing} {e : CompileError}
    (h : e ∈ (gather node edges out).errors) :
    e ∈ out.errors ∨ ∃ index err, e = .condition index node err := by
  induction edges generalizing out with
  | nil => exact .inl h
  | cons p rest ih =>
    unfold gather at h
    split at h
    · split at h
      · exact .inl h
      · have hrest := ih h
        exact hrest
    · split at h
      · have hrest := ih h
        exact hrest
      · rcases ih h with h | h
        · rcases List.mem_append.1 h with h | h
          · exact .inl h
          · exact .inr ⟨_, _, List.mem_singleton.1 h⟩
        · exact .inr h

/-- Where no error is found and no edge stands in the way, every condition can be read. -/
theorem parses_of_errors {out : Outgoing} (h : ¬ Wide edges)
    (herrors : (gather node edges out).errors = []) :
    ∀ p ∈ conditionalTargets (edges.map Prod.snd), ∃ c, Condition.parse p.1 = .ok c := by
  induction edges generalizing out with
  | nil => simp [conditionalTargets]
  | cons p rest ih =>
    obtain ⟨index, e⟩ := p
    have hrest : ¬ Wide rest := fun ⟨p, hp, hwide⟩ => h ⟨p, List.mem_cons_of_mem _ hp, hwide⟩
    rw [List.map_cons, conditionalTargets_cons]
    unfold gather at herrors
    intro q hq
    cases hcondition : e.condition with
    | none =>
      have hone : ¬ 1 < e.targets.length := fun hlt =>
        h ⟨(index, e), List.mem_cons_self, hcondition, hlt⟩
      rw [hcondition] at herrors
      dsimp only at herrors
      rw [if_neg hone] at herrors
      have hconditional : conditionalTargets [e] = [] := by simp [conditionalTargets, hcondition]
      rw [hconditional] at hq
      exact ih hrest herrors q hq
    | some source =>
      rw [hcondition] at herrors
      dsimp only at herrors
      cases hparse : Condition.parse source with
      | ok c =>
        rw [hparse] at herrors
        rcases List.mem_append.1 hq with hq | hq
        · simp only [conditionalTargets, List.flatMap_cons, hcondition, List.flatMap_nil,
            List.append_nil, List.mem_map] at hq
          obtain ⟨_, _, rfl⟩ := hq
          exact ⟨c, hparse⟩
        · exact ih hrest herrors q hq
      | error err =>
        rw [hparse] at herrors
        have hmem := errors_subset_gather node rest
          { out with errors := out.errors ++ [.condition index node err] }
          (List.mem_append_right _ List.mem_cons_self)
        rw [herrors] at hmem
        cases hmem

/-- A node is found ambiguous exactly when it has several plain targets in all. -/
theorem ambiguous_iff (node : String) : ((gather node edges .none).ambiguous ||
    decide (1 < (gather node edges .none).plain.length)) = true ↔
      1 < (plainTargets (edges.map Prod.snd)).length := by
  by_cases h : Wide edges
  · rw [ambiguous_gather node h, Bool.true_or]
    refine ⟨fun _ => ?_, fun _ => rfl⟩
    obtain ⟨p, hp, hcondition, hlt⟩ := h
    have hsub : p.2.targets.Sublist (plainTargets (edges.map Prod.snd)) := by
      have hmem : p.2 ∈ edges.map Prod.snd := List.mem_map_of_mem hp
      unfold plainTargets
      rw [List.flatMap_def]
      refine List.sublist_flatten_of_mem (List.mem_map.2 ⟨p.2, hmem, ?_⟩)
      rw [hcondition]
    exact Nat.lt_of_lt_of_le hlt hsub.length_le
  · obtain ⟨hambiguous, hplain, _⟩ := gather_spec node h .none
    rw [hambiguous, hplain]
    simp [Outgoing.none]

end Outgoing

/-! ## The transition of a node -/

theorem find?_branches (fields : Fields) {targets : List (String × String)}
    (h : ∀ p ∈ targets, ∃ c, Condition.parse p.1 = .ok c) :
    ((targets.filterMap branch?).find? fun b => b.1.holds fields).map Prod.snd =
      (targets.find? fun p => HoldsIn fields p.1).map fun p => Target.ofName p.2 := by
  induction targets with
  | nil => rfl
  | cons p rest ih =>
    obtain ⟨c, hc⟩ := h p List.mem_cons_self
    have hbranch : branch? p = some (c, Target.ofName p.2) := by
      unfold branch?
      rw [hc]
    have hholds : HoldsIn fields p.1 = c.holds fields := by
      unfold HoldsIn
      rw [hc]
    have hrest := ih fun q hq => h q (List.mem_cons_of_mem _ hq)
    rw [List.filterMap_cons, hbranch]
    dsimp only
    rw [List.find?_cons, List.find?_cons, hholds]
    cases c.holds fields with
    | true => rfl
    | false => exact hrest

theorem filterMap_branch?_eq_nil {targets : List (String × String)}
    (h : ∀ p ∈ targets, ∃ c, Condition.parse p.1 = .ok c) (hnil : targets.filterMap branch? = []) :
    targets = [] := by
  cases targets with
  | nil => rfl
  | cons p rest =>
    obtain ⟨c, hc⟩ := h p List.mem_cons_self
    simp [branch?, hc] at hnil

namespace Transition

variable {node : String} {edges : List (Nat × EdgeDecl)}

theorem errors_gather_subset :
    (Outgoing.gather node edges .none).errors ⊆ (Transition.ofEdges node edges).2 := by
  unfold Transition.ofEdges
  dsimp only
  split
  · exact List.subset_append_left _ _
  · split
    · exact List.Subset.refl _
    · split
      · exact List.subset_append_left _ _
      · exact List.Subset.refl _
    · exact List.Subset.refl _

/-- What is found wrong with the edges of a node: conditions that cannot be read, several plain
targets, or no edges at all. -/
theorem mem_errors_ofEdges {e : DefinitionError} :
    .definition e ∈ (Transition.ofEdges node edges).2 ↔
      e = .ambiguousTransition node ∧ 1 < (plainTargets (edges.map Prod.snd)).length ∨
      e = .missingTransition node ∧ edges = [] := by
  have hgather : .definition e ∉ (Outgoing.gather node edges .none).errors := by
    intro hmem
    rcases Outgoing.mem_errors_gather hmem with hnone | ⟨_, _, hcondition⟩
    · cases hnone
    · cases hcondition
  have hiff := @Outgoing.ambiguous_iff edges node
  unfold Transition.ofEdges
  dsimp only
  by_cases hambiguous : 1 < (plainTargets (edges.map Prod.snd)).length
  · rw [if_pos (hiff.2 hambiguous), List.mem_append, List.mem_singleton,
      CompileError.definition.injEq]
    have hne : edges ≠ [] := by
      rintro rfl
      simp [plainTargets] at hambiguous
    simp [hgather, hambiguous, hne]
  · rw [if_neg fun h => hambiguous (hiff.1 h)]
    split
    · next hplain =>
      have hne : edges ≠ [] := by
        rintro rfl
        simp [Outgoing.gather, Outgoing.none] at hplain
      simp [hgather, hambiguous, hne]
    · split
      · next hempty =>
        rw [List.mem_append, List.mem_singleton, CompileError.definition.injEq]
        obtain rfl := List.isEmpty_iff.1 hempty
        simp only [hgather, hambiguous, and_false, false_or, and_true]
      · next hempty =>
        have hne : edges ≠ [] := fun hnil => hempty (List.isEmpty_iff.2 hnil)
        simp [hgather, hambiguous, hne]
    · next hneither =>
      have hne : edges ≠ [] := by
        rintro rfl
        exact hneither rfl rfl
      simp [hgather, hambiguous, hne]

theorem choose_conditional {fields : Fields} {targets : List (String × String)}
    (h : ∀ p ∈ targets, ∃ c, Condition.parse p.1 = .ok c) (fallback : Option String) :
    ((Transition.conditional (targets.filterMap branch?) (fallback.map Target.ofName)).choose
      node fields).map Target.node? =
        match targets.find? fun p => HoldsIn fields p.1 with
        | some p => .ok (landing p.2)
        | none =>
          match fallback with
          | some name => .ok (landing name)
          | none => .error (.noMatchingTransition node) := by
  have hfind := find?_branches fields h
  unfold choose
  dsimp only
  cases htarget : targets.find? fun p => HoldsIn fields p.1 with
  | some p =>
    rw [htarget] at hfind
    obtain ⟨b, hb, hleads⟩ := Option.map_eq_some_iff.1 hfind
    rw [hb]
    dsimp only
    rw [hleads]
    exact congrArg Except.ok (node?_ofName p.2)
  | none =>
    rw [htarget] at hfind
    rw [Option.map_eq_none_iff.1 hfind]
    cases fallback with
    | some name => exact congrArg Except.ok (node?_ofName name)
    | none => rfl

/-- In edges without errors at most one target is plain, and every condition can be read. -/
theorem clear_of_errors (herrors : (Transition.ofEdges node edges).2 = []) :
    ¬ Wide edges ∧ (plainTargets (edges.map Prod.snd)).length ≤ 1 ∧
      ∀ p ∈ conditionalTargets (edges.map Prod.snd), ∃ c, Condition.parse p.1 = .ok c := by
  have hfew : ¬ 1 < (plainTargets (edges.map Prod.snd)).length := by
    intro hlt
    have hmem : .definition (.ambiguousTransition node) ∈ (Transition.ofEdges node edges).2 :=
      mem_errors_ofEdges.2 (.inl ⟨rfl, hlt⟩)
    rw [herrors] at hmem
    cases hmem
  have hwide : ¬ Wide edges := by
    intro h
    refine hfew ((Outgoing.ambiguous_iff node).1 ?_)
    rw [Outgoing.ambiguous_gather node h, Bool.true_or]
  have hgathered : (Outgoing.gather node edges .none).errors = [] :=
    List.subset_nil.1 (herrors ▸ errors_gather_subset)
  exact ⟨hwide, Nat.le_of_not_lt hfew, Outgoing.parses_of_errors hwide hgathered⟩

/-- A transition that edges make without errors leads where the edges lead by their plain
reading. -/
theorem choose_ofEdges {t : Transition} (ht : (Transition.ofEdges node edges).1 = some t)
    (herrors : (Transition.ofEdges node edges).2 = []) (fields : Fields) :
    (t.choose node fields).map Target.node? = nextByEdges node (edges.map Prod.snd) fields := by
  obtain ⟨hwide, hfew, hparses⟩ := clear_of_errors herrors
  have hunambiguous : ¬ ((Outgoing.gather node edges .none).ambiguous ||
      decide (1 < (Outgoing.gather node edges .none).plain.length)) = true :=
    fun h => Nat.not_lt.2 hfew ((Outgoing.ambiguous_iff node).1 h)
  obtain ⟨_, hplain, hbranches⟩ := Outgoing.gather_spec node hwide .none
  rw [show Outgoing.none.plain = [] from rfl, List.nil_append] at hplain
  rw [show Outgoing.none.branches = [] from rfl, List.nil_append] at hbranches
  unfold Transition.ofEdges at ht
  dsimp only at ht
  rw [if_neg hunambiguous, hplain, hbranches] at ht
  unfold nextByEdges
  generalize conditionalTargets (edges.map Prod.snd) = conditional at *
  generalize plainTargets (edges.map Prod.snd) = plain at *
  split at ht
  · next hnil hcons =>
    cases ht
    cases plain with
    | nil => cases hcons
    | cons name rest =>
      cases hcons
      rw [filterMap_branch?_eq_nil hparses hnil]
      exact congrArg Except.ok (node?_ofName name)
  · split at ht <;> cases ht
  · cases ht
    rw [List.head?_map, choose_conditional hparses]
    cases plain <;> rfl

/-- The transition of a router leads where its routes lead for the value at its route field. -/
theorem choose_ofRoutes (node : NodeDecl) (spec : RouterSpec) (fields : Fields) :
    ((Transition.ofRoutes node spec).choose node.id fields).map Target.node? =
      nextByRoutes node.id spec (fields.at? node.routeField) := by
  have hroutes (key : Option String) :
      key.bind (spec.routes.mapValues Target.ofName).get? =
        (key.bind spec.routes.get?).map Target.ofName := by
    cases key with
    | none => rfl
    | some key => exact Dict.get?_mapValues _ _ _
  unfold Transition.ofRoutes choose nextByRoutes
  dsimp only
  rw [routeText?_eq, hroutes]
  cases ((fields.at? node.routeField).bind routeKey?).bind spec.routes.get? with
  | some name => exact congrArg Except.ok (node?_ofName name)
  | none =>
    cases spec.defaultRoute with
    | some name => exact congrArg Except.ok (node?_ofName name)
    | none => rfl

end Transition

/-! ## Definitions -/

namespace Definition

variable {d : Definition}

theorem map_edgesOf (d : Definition) (node : String) :
    (d.edgesOf node).map Prod.snd = d.leaving node := by
  have hzip : ((List.range d.edges.length).zip d.edges).map Prod.snd = d.edges :=
    List.map_snd_zip (by simp)
  unfold leaving
  conv_rhs => rw [← hzip, List.filter_map]
  rfl

theorem transitionOf_of_not_router {node : NodeDecl} (h : ∀ spec, node.kind ≠ .router spec) :
    d.transitionOf node = Transition.ofEdges node.id (d.edgesOf node.id) := by
  unfold transitionOf
  split
  · next spec hkind => exact absurd hkind (h spec)
  · rfl

/-- What is reported of a node: nothing of a router, and of any other node several plain targets
or no edges at all. -/
theorem mem_errors_transitionOf {node : NodeDecl} {e : DefinitionError} :
    .definition e ∈ (d.transitionOf node).2 ↔ (∀ spec, node.kind ≠ .router spec) ∧
      (e = .ambiguousTransition node.id ∧ 1 < (plainTargets (d.leaving node.id)).length ∨
        e = .missingTransition node.id ∧ d.leaving node.id = []) := by
  have hnone : d.edgesOf node.id = [] ↔ d.leaving node.id = [] := by
    rw [← map_edgesOf, List.map_eq_nil_iff]
  unfold transitionOf
  split
  · next spec hkind =>
    rw [hkind]
    simp
  · next hkind =>
    rw [Transition.mem_errors_ofEdges, map_edgesOf, hnone]
    exact (and_iff_right hkind).symm

/-- Of the nodes with one id the last one gives the transition. -/
theorem get?_transitions_of_last {before after : List NodeDecl} {node : NodeDecl}
    (hnodes : d.nodes = before ++ node :: after) (hlast : ∀ n ∈ after, n.id ≠ node.id)
    {t : Transition} (ht : (d.transitionOf node).1 = some t) :
    d.transitions.get? node.id = some t := by
  have hkept (acc : Dict Transition) :
      Dict.get? (after.foldl d.addTransition acc) node.id = acc.get? node.id := by
    clear hnodes
    induction after generalizing acc with
    | nil => rfl
    | cons n rest ih =>
      rw [List.foldl_cons, ih fun m hm => hlast m (List.mem_cons_of_mem _ hm)]
      unfold addTransition
      split
      · exact Dict.get?_put_of_ne _ _ (hlast n List.mem_cons_self)
      · rfl
  show Dict.get? (d.nodes.foldl d.addTransition []) node.id = some t
  rw [hnodes, List.foldl_append, List.foldl_cons, hkept]
  unfold addTransition
  rw [ht]
  exact Dict.get?_put_self _ _ _

theorem isSome_entryPoint? {node : NodeDecl} (h : node ∈ d.nodes) : d.entryPoint?.isSome := by
  unfold entryPoint?
  split
  · rfl
  · split
    · rfl
    · obtain ⟨first, rest, hcons⟩ := List.exists_cons_of_ne_nil (List.ne_nil_of_mem h)
      rw [hcons]
      rfl

end Definition

namespace TransitionTable

variable {d : Definition}

/-- What is reported of the edges of nodes is what is found wrong with the transition of one. -/
theorem reports_iff {e : DefinitionError} (hkey : e ≠ .missingKey "nodes")
    (hreached : ∀ id entry, e ≠ .unreachableNode id entry) :
    (∃ errors, ofDefinition d = .error errors ∧ .definition e ∈ errors) ↔
      ∃ node ∈ d.nodes, .definition e ∈ (d.transitionOf node).2 := by
  constructor
  · rintro ⟨errors, herrors, he⟩
    cases hentry : d.entryPoint? with
    | none =>
      unfold ofDefinition at herrors
      rw [hentry] at herrors
      cases herrors
      rw [List.mem_singleton, CompileError.definition.injEq] at he
      exact absurd he hkey
    | some entry =>
      rw [ofDefinition_of_entry hentry] at herrors
      split at herrors
      · cases herrors
      · cases herrors
        rcases mem_errors_draft.1 he with hnode | ⟨id, _, heq⟩ | hassigned
        · exact hnode
        · exact absurd (CompileError.definition.inj heq) (hreached id entry)
        · obtain ⟨_, heq⟩ := (Definition.assignLimits_eq_error_iff (nodup_cyclesOf d)).1 hassigned
          cases heq
  · rintro ⟨node, hnode, he⟩
    obtain ⟨entry, hentry⟩ := Option.isSome_iff_exists.1 (Definition.isSome_entryPoint? hnode)
    have hmem : .definition e ∈ (draft d entry).2 := mem_errors_draft.2 (.inl ⟨node, hnode, he⟩)
    refine ⟨(draft d entry).2, ?_, hmem⟩
    rw [ofDefinition_of_entry hentry, if_neg]
    rw [List.isEmpty_iff]
    exact List.ne_nil_of_mem hmem

/-- **The table implements the edge list.** In a valid definition whose table is made, a node
that is no router leads where its edges lead by their plain reading: to the target of the first
conditional edge whose condition is true, else to the one target without condition, else nowhere
with an error that names it. All its conditions can be read, and it has at most one target without
condition. A router leads where its routes lead for the text of the value at its route field. Of
several nodes with one id the last one counts. Whether or not the table is made, exactly the nodes
other than routers that have several targets without condition are reported as ambiguous, and
exactly those without edges as missing a transition. -/
theorem next_follows_edge_list (hd : d.faults = []) :
    (∀ table, ofDefinition d = .ok table → ∀ before node after,
      d.nodes = before ++ node :: after → (∀ n ∈ after, n.id ≠ node.id) →
        (∀ spec, node.kind = .router spec → ∀ fields, table.next node.id fields =
          nextByRoutes node.id spec (fields.at? node.routeField)) ∧
        ((∀ spec, node.kind ≠ .router spec) →
          (∀ p ∈ conditionalTargets (d.leaving node.id), ∃ c, Condition.parse p.1 = .ok c) ∧
          (plainTargets (d.leaving node.id)).length ≤ 1 ∧
          ∀ fields, table.next node.id fields =
            nextByEdges node.id (d.leaving node.id) fields)) ∧
    (∀ id, (∃ errors, ofDefinition d = .error errors ∧
        .definition (.ambiguousTransition id) ∈ errors) ↔
      ∃ node ∈ d.nodes, node.id = id ∧ (∀ spec, node.kind ≠ .router spec) ∧
        1 < (plainTargets (d.leaving id)).length) ∧
    ∀ id, (∃ errors, ofDefinition d = .error errors ∧
        .definition (.missingTransition id) ∈ errors) ↔
      ∃ node ∈ d.nodes, node.id = id ∧ (∀ spec, node.kind ≠ .router spec) ∧
        d.leaving id = [] := by
  refine ⟨fun table htable before node after hnodes hlast => ?_, fun id => ?_, fun id => ?_⟩
  · have hmade := madeOf htable
    have hmem : node ∈ d.nodes := by
      rw [hnodes]
      exact List.mem_append_right _ List.mem_cons_self
    have herrors := hmade.edges node hmem
    obtain ⟨t, ht⟩ := Option.isSome_iff_exists.1 (Definition.isSome_transitionOf hd herrors)
    have htransition : table.transition? node.id = some t := by
      unfold transition?
      rw [hmade.transitions]
      exact Definition.get?_transitions_of_last hnodes hlast ht
    have hnext (fields : Fields) :
        table.next node.id fields = (t.choose node.id fields).map Target.node? := by
      unfold next
      rw [htransition]
    refine ⟨fun spec hkind fields => ?_, fun hkind => ?_⟩
    · unfold Definition.transitionOf at ht
      rw [hkind] at ht
      cases ht
      rw [hnext]
      exact Transition.choose_ofRoutes node spec fields
    · rw [Definition.transitionOf_of_not_router hkind] at ht herrors
      obtain ⟨_, hfew, hparses⟩ := Transition.clear_of_errors herrors
      rw [Definition.map_edgesOf] at hfew hparses
      refine ⟨hparses, hfew, fun fields => ?_⟩
      rw [hnext, Transition.choose_ofEdges ht herrors, Definition.map_edgesOf]
  · rw [reports_iff (by simp) (by simp)]
    refine exists_congr fun node => and_congr_right fun _ => ?_
    rw [Definition.mem_errors_transitionOf]
    constructor
    · rintro ⟨hkind, ⟨heq, hlt⟩ | ⟨heq, _⟩⟩
      · cases heq
        exact ⟨rfl, hkind, hlt⟩
      · cases heq
    · rintro ⟨rfl, hkind, hlt⟩
      exact ⟨hkind, .inl ⟨rfl, hlt⟩⟩
  · rw [reports_iff (by simp) (by simp)]
    refine exists_congr fun node => and_congr_right fun _ => ?_
    rw [Definition.mem_errors_transitionOf]
    constructor
    · rintro ⟨hkind, ⟨heq, _⟩ | ⟨heq, hnil⟩⟩
      · cases heq
      · cases heq
        exact ⟨rfl, hkind, hnil⟩
    · rintro ⟨rfl, hkind, hnil⟩
      exact ⟨hkind, .inr ⟨rfl, hnil⟩⟩

/-- A gate with a plain edge before a conditional one that names two targets, and a router. -/
def crossing : Definition where
  version := none
  name := "crossing"
  description := none
  entry := none
  defaults := .standard
  tools := []
  nodes := [⟨"gate", .passthrough ⟨[], [], []⟩, .unset⟩,
    ⟨"pick", .router ⟨none, some "kind", [], [("3", "END")], none, "classification"⟩, .unset⟩,
    ⟨"way", .passthrough ⟨[], [], []⟩, .unset⟩]
  edges := [⟨"gate", .one "pick", none⟩, ⟨"gate", .many ["way", "END"], some "open"⟩,
    ⟨"way", .one "END", none⟩]
  loopLimits := []
  checkpoint := none

/-- The plain edge of the gate counts where the condition is not true, a number is compared by its
text, and nothing is reported. -/
theorem crossing_next : crossing.faults = [] ∧ ∃ table, ofDefinition crossing = .ok table ∧
    table.next "gate" [] = .ok (some "pick") ∧
    table.next "gate" [("open", .bool true)] = .ok (some "way") ∧
    table.next "pick" [("pick_route", .int 3)] = .ok none ∧
    table.next "pick" [("pick_route", .null)] = .error (.unmatchedRoute "pick" "null") ∧
    ¬ ∃ errors, ofDefinition crossing = .error errors ∧
      .definition (.missingTransition "way") ∈ errors := by
  have hd : crossing.faults = [] := by with_unfolding_all rfl
  obtain ⟨table, htable⟩ : ∃ table, ofDefinition crossing = .ok table :=
    ⟨_, by with_unfolding_all rfl⟩
  obtain ⟨hnext, _, hmissing⟩ := next_follows_edge_list hd
  have hgate := ((hnext table htable [] _ _ rfl (by decide)).2 (by simp)).2.2
  have hpick := (hnext table htable [_] _ _ rfl (by decide)).1 _ rfl
  refine ⟨hd, table, htable, ?_, ?_, ?_, ?_, ?_⟩
  · exact (hgate []).trans (by with_unfolding_all rfl)
  · exact (hgate _).trans (by with_unfolding_all rfl)
  · exact (hpick _).trans (by with_unfolding_all rfl)
  · exact (hpick _).trans (by with_unfolding_all rfl)
  · rw [hmissing]
    rintro ⟨_, _, _, _, hnil⟩
    exact absurd hnil (by decide)

end TransitionTable

end WorkflowGraph
