import Mathlib.Algebra.BigOperators.Group.Finset.Piecewise
import WorkflowGraph.Proofs.Transition.Cycle
import WorkflowGraph.Proofs.Transition.Limits
import WorkflowGraph.Proofs.Transition.Targets

/-!
# The tables of valid definitions

A table that is made without errors says of every node where it leads (`MadeOf.isSome_transition?`),
leads nowhere but to the end and to nodes (`MadeOf.leadsWithin`), and reaches every node from the
entry (`MadeOf.reaches`). Every node that leads back to itself lies on one of the cycles that were
searched for, and all members of these have a limit, so that every walk that never ends visits a
node with a limit again and again (`MadeOf.isSome_limit?`).

What the table says about loops is exact. Its cycles are the strongly connected components that
contain a cycle, each once and in the order of the declarations (`cycles_exact`). The limits of
nodes are the declared ones, and for the other members of a cycle what their own component declares,
or the default (`limits_per_component`).
-/

set_option autoImplicit false

namespace WorkflowGraph

namespace TransitionTable

/-! ## The bound of the search -/

/-- The nodes that transitions mention. -/
def mentioned (transitions : Dict Transition) : List String :=
  transitions.flatMap fun p => p.2.successors

theorem successorsIn_subset_mentioned (transitions : Dict Transition) (node : String) :
    ∀ m ∈ successorsIn transitions node, m ∈ mentioned transitions := by
  intro m hm
  unfold successorsIn at hm
  split at hm
  · next t ht => exact List.mem_flatMap.2 ⟨_, Dict.mem_of_get? ht, hm⟩
  · simp at hm

theorem length_mentioned_lt_bound (transitions : Dict Transition) :
    (mentioned transitions).length < bound transitions := by
  induction transitions with
  | nil => exact Nat.one_pos
  | cons p rest ih =>
    obtain ⟨id, t⟩ := p
    have hfirst : t.successors.length ≤ t.targets.length := List.length_filterMap_le _ _
    unfold mentioned at ih ⊢
    rw [List.flatMap_cons, List.length_append]
    unfold bound
    dsimp only
    omega

/-- A graph of transitions has at most as many edges as its transitions have targets, and every
node of it is the one that a search starts from or the target of an edge. -/
theorem sum_length_successorsIn_le (transitions : Dict Transition) (nodes : Finset String) :
    ∑ n ∈ nodes, (successorsIn transitions n).length ≤ (mentioned transitions).length := by
  induction transitions with
  | nil => simp [successorsIn]
  | cons p rest ih =>
    obtain ⟨id, t⟩ := p
    have hfirst (n : String) : (successorsIn ((id, t) :: rest) n).length ≤
        (if id = n then t.successors.length else 0) + (successorsIn rest n).length := by
      unfold successorsIn
      rw [Dict.get?_cons]
      by_cases h : id = n
      · rw [if_pos h, if_pos h]
        exact Nat.le_add_right _ _
      · rw [if_neg h, if_neg h, Nat.zero_add]
    calc ∑ n ∈ nodes, (successorsIn ((id, t) :: rest) n).length
        ≤ ∑ n ∈ nodes, ((if id = n then t.successors.length else 0) +
            (successorsIn rest n).length) := Finset.sum_le_sum fun n _ => hfirst n
      _ = (∑ n ∈ nodes, if id = n then t.successors.length else 0) +
            ∑ n ∈ nodes, (successorsIn rest n).length := Finset.sum_add_distrib
      _ ≤ t.successors.length + (mentioned rest).length := by
          refine Nat.add_le_add ?_ ih
          rw [Finset.sum_ite_eq]
          split <;> simp
      _ = (mentioned ((id, t) :: rest)).length := by
          unfold mentioned
          rw [List.flatMap_cons, List.length_append]

/-- Twice the bound is enough for a search from any node. -/
theorem enough (transitions : Dict Transition) :
    Search.Enough (successorsIn transitions) (2 * bound transitions) := by
  intro node
  refine ⟨(node :: mentioned transitions).toFinset, by simp, fun n m hm => ?_, ?_⟩
  · rw [List.mem_toFinset]
    exact List.mem_cons_of_mem _ (successorsIn_subset_mentioned transitions n m hm)
  · have hedges := sum_length_successorsIn_le transitions (node :: mentioned transitions).toFinset
    have hnodes := List.toFinset_card_le (node :: mentioned transitions)
    have hbound := length_mentioned_lt_bound transitions
    rw [List.length_cons] at hnodes
    rw [Finset.sum_add_distrib, ← Finset.card_eq_sum_ones]
    omega

/-- A node with successors is declared. -/
theorem mem_nodeIds_of_successorsIn {d : Definition} {node : String}
    (h : successorsIn d.transitions node ≠ []) : node ∈ d.nodeIds := by
  unfold successorsIn at h
  split at h
  · next t ht =>
    obtain ⟨decl, hdecl, hid, _⟩ := Definition.exists_node_of_get?_transitions ht
    exact List.mem_map.2 ⟨decl, hdecl, hid⟩
  · exact absurd rfl h

/-- The cycles of a definition. -/
def cyclesOf (d : Definition) : List (List String) :=
  Search.cycles (successorsIn d.transitions) (2 * bound d.transitions) d.nodeIds

theorem nodup_cyclesOf (d : Definition) : (cyclesOf d).flatten.Nodup :=
  Search.nodup_cycles (enough d.transitions) d.nodeIds

@[simp] theorem draft_entry (d : Definition) (entry : String) :
    (draft d entry).1.entry = entry := by
  unfold draft
  dsimp only
  split <;> rfl

@[simp] theorem draft_transitions (d : Definition) (entry : String) :
    (draft d entry).1.transitions = d.transitions := by
  unfold draft
  dsimp only
  split <;> rfl

@[simp] theorem draft_cycles (d : Definition) (entry : String) :
    (draft d entry).1.cycles = cyclesOf d := by
  unfold draft
  dsimp only
  split <;> rfl

theorem draft_limits {d : Definition} (entry : String) {limits : Dict Nat}
    (h : d.assignLimits (cyclesOf d) = .ok limits) : (draft d entry).1.limits = limits := by
  unfold cyclesOf at h
  unfold draft
  dsimp only
  rw [h]

/-- The nodes that are not reached from the entry. -/
def unreachable (d : Definition) (entry : String) : List String :=
  d.nodeIds.filter fun id =>
    !(Reach.closure (successorsIn d.transitions) (bound d.transitions) entry).contains id

/-- What is found wrong with a definition: first with the edges of its nodes, then with the
nodes that are not reached, last with the limits of its cycles. -/
theorem mem_errors_draft {d : Definition} {entry : String} {e : CompileError} :
    e ∈ (draft d entry).2 ↔ (∃ node ∈ d.nodes, e ∈ (d.transitionOf node).2) ∨
      (∃ id ∈ unreachable d entry, e = .definition (.unreachableNode id entry)) ∨
      d.assignLimits (cyclesOf d) = .error e := by
  have hfound : e ∈ (d.nodes.flatMap fun n => (d.transitionOf n).2) ++
      (unreachable d entry).map (fun id => .definition (.unreachableNode id entry)) ↔
      (∃ node ∈ d.nodes, e ∈ (d.transitionOf node).2) ∨
        ∃ id ∈ unreachable d entry, e = .definition (.unreachableNode id entry) := by
    simp only [List.mem_append, List.mem_flatMap, List.mem_map, eq_comm]
  rw [← or_assoc, ← hfound]
  unfold draft
  dsimp only
  change _ ↔ _ ∨ d.assignLimits (Search.cycles (successorsIn d.transitions)
    (2 * bound d.transitions) d.nodeIds) = .error e
  split
  · next hassigned =>
    rw [hassigned]
    simp only [reduceCtorEq, or_false]
    rfl
  · next e' hassigned =>
    rw [hassigned, List.mem_append, List.mem_singleton, Except.error.injEq]
    exact or_congr Iff.rfl eq_comm

/-! ## Tables without errors -/

/-- What a table is made of when the definition has no errors. -/
structure MadeOf (d : Definition) (table : TransitionTable) : Prop where
  entry : d.entryPoint? = some table.entry
  transitions : table.transitions = d.transitions
  cycles : table.cycles = cyclesOf d
  limits : d.assignLimits table.cycles = .ok table.limits
  edges : ∀ node ∈ d.nodes, (d.transitionOf node).2 = []
  reached : ∀ id ∈ d.nodeIds,
    id ∈ Reach.closure (successorsIn d.transitions) (bound d.transitions) table.entry

theorem ofDefinition_of_entry {d : Definition} {entry : String}
    (h : d.entryPoint? = some entry) : ofDefinition d =
      if (draft d entry).2.isEmpty then .ok (draft d entry).1 else .error (draft d entry).2 := by
  unfold ofDefinition
  rw [h]

/-- A table that is made has been made without errors. -/
theorem madeOf {d : Definition} {table : TransitionTable} (h : ofDefinition d = .ok table) :
    MadeOf d table := by
  cases hentry : d.entryPoint? with
  | none =>
    unfold ofDefinition at h
    rw [hentry] at h
    simp at h
  | some entry =>
    rw [ofDefinition_of_entry hentry] at h
    split at h
    · next hempty =>
      cases h
      have hnone (e : CompileError) : e ∉ (draft d entry).2 := by simp [List.isEmpty_iff.1 hempty]
      refine ⟨by rw [hentry, draft_entry], draft_transitions d entry, draft_cycles d entry,
        ?_, fun node hnode => ?_, fun id hid => ?_⟩
      · cases hassigned : d.assignLimits (cyclesOf d) with
        | error e => exact absurd (mem_errors_draft.2 (.inr (.inr hassigned))) (hnone e)
        | ok limits =>
          rw [draft_cycles, draft_limits entry hassigned, hassigned]
      · refine List.eq_nil_iff_forall_not_mem.2 fun e he => hnone e ?_
        exact mem_errors_draft.2 (.inl ⟨node, hnode, he⟩)
      · rw [draft_entry]
        by_contra hreached
        refine hnone _ (mem_errors_draft.2 (.inr (.inl ⟨id, List.mem_filter.2 ⟨hid, ?_⟩, rfl⟩)))
        simpa using hreached
    · simp at h

theorem errors_ne_nil {d : Definition} {errors : List CompileError}
    (h : ofDefinition d = .error errors) : errors ≠ [] := by
  cases hentry : d.entryPoint? with
  | none =>
    unfold ofDefinition at h
    rw [hentry] at h
    cases h
    simp
  | some entry =>
    rw [ofDefinition_of_entry hentry] at h
    split at h
    · simp at h
    · next hempty =>
      cases h
      simpa using hempty

namespace MadeOf

variable {d : Definition} {table : TransitionTable}

theorem entry_mem (h : MadeOf d table) (hd : d.faults = []) : table.entry ∈ d.nodeIds :=
  Definition.entry_mem_nodeIds hd h.entry

theorem successors_subset (h : MadeOf d table) (hd : d.faults = []) (node : String) :
    table.successors node ⊆ d.nodeIds := by
  unfold successors
  rw [h.transitions]
  exact Definition.successorsIn_subset hd node

theorem isSome_transition? (h : MadeOf d table) (hd : d.faults = []) {node : String}
    (hnode : node ∈ d.nodeIds) : (table.transition? node).isSome := by
  obtain ⟨decl, hdecl, hid⟩ := List.mem_map.1 hnode
  unfold transition?
  rw [h.transitions]
  apply Definition.isSome_get?_foldl_addTransition
  exact .inr ⟨decl, hdecl, hid, Definition.isSome_transitionOf hd (h.edges decl hdecl)⟩

theorem leadsWithin (h : MadeOf d table) (hd : d.faults = []) {node : String} {t : Transition}
    (ht : table.transition? node = some t) : ∀ x ∈ t.targets, x.LeadsWithin d.nodeIds := by
  unfold transition? at ht
  rw [h.transitions] at ht
  obtain ⟨decl, hdecl, _, htransition⟩ := Definition.exists_node_of_get?_transitions ht
  exact Definition.transitionOf_leadsWithin hd hdecl htransition

theorem reaches (h : MadeOf d table) {node : String} (hnode : node ∈ d.nodeIds) :
    Relation.ReflTransGen (Reach.Step table.successors) table.entry node := by
  have hstep : table.successors = successorsIn d.transitions := by
    funext id
    rw [successors, h.transitions]
  rw [hstep]
  exact Reach.reaches_of_mem_closure (h.reached node hnode)

/-- A node that leads back to itself lies on one of the cycles. -/
theorem exists_cycle (h : MadeOf d table) {node : String}
    (hret : Reach.Leads table.successors node node) : ∃ c ∈ table.cycles, node ∈ c := by
  have hstep : table.successors = successorsIn d.transitions := by
    funext id
    rw [successors, h.transitions]
  rw [hstep] at hret
  rw [h.cycles]
  exact (Search.mem_cycle_iff (enough d.transitions)
    (fun _ => mem_nodeIds_of_successorsIn) node).2 hret

theorem isSome_limit? (h : MadeOf d table) {node : String}
    (hret : Reach.Leads table.successors node node) : (table.limit? node).isSome := by
  obtain ⟨c, hc, hmem⟩ := h.exists_cycle hret
  have hnodup : table.cycles.flatten.Nodup := h.cycles ▸ nodup_cyclesOf d
  exact Definition.isSome_get?_of_mem_cycle hnodup h.limits hc hmem

end MadeOf

end TransitionTable

end WorkflowGraph

namespace WorkflowGraph.TransitionTable

open Reach (Leads)

/-! ## Cycles -/

/-- **The cycles of a table are exactly the strongly connected components that contain a
cycle.** The search that finds them ends before its limit on steps, so that a larger limit changes
nothing. Two nodes share a cycle exactly when each leads to the other by one or more transitions,
a node lies on one exactly when it leads to itself, and no node stands in two of them or twice in
one. The members of every cycle stand in the order of the declarations, of which the last counts
where an id is declared more than once, and so do the first members of the cycles. -/
theorem cycles_exact (d : Definition) (entry : String) :
    let table := (draft d entry).1
    (∀ steps, 2 * bound d.transitions ≤ steps →
      (Search.visitAll table.successors steps d.nodeIds).frames = [] ∧
        Search.cycles table.successors steps d.nodeIds = table.cycles) ∧
    (∀ a b, (∃ c ∈ table.cycles, a ∈ c ∧ b ∈ c) ↔
      Leads table.successors a b ∧ Leads table.successors b a) ∧
    (∀ a, table.inCycle a = true ↔ Leads table.successors a a) ∧
    table.cycles.flatten.Nodup ∧
    (∀ c ∈ table.cycles, c ≠ [] ∧ c.Sublist d.nodeIds.dedup) ∧
    (table.cycles.filterMap List.head?).Sublist d.nodeIds.dedup := by
  intro table
  have hcycles : table.cycles = cyclesOf d := draft_cycles d entry
  have hsuccessors : table.successors = successorsIn d.transitions := by
    funext node
    rw [successors, draft_transitions]
  have henough := enough d.transitions
  have hdeclared (n : String) : successorsIn d.transitions n ≠ [] → n ∈ d.nodeIds :=
    mem_nodeIds_of_successorsIn
  rw [hcycles, hsuccessors]
  refine ⟨fun steps hsteps => ?_, Search.shares_cycle_iff henough hdeclared, fun a => ?_,
    nodup_cyclesOf d, fun c hc => ?_, Search.firsts_sublist henough hdeclared⟩
  · have hsame := Search.visitAll_eq_of_le henough hsteps d.nodeIds
    refine ⟨?_, ?_⟩
    · rw [hsame]
      exact (Search.visitAll_spec henough d.nodeIds).1.frames
    · unfold cyclesOf Search.cycles
      rw [hsame]
  · rw [← Search.mem_cycle_iff henough hdeclared a, inCycle, hcycles, List.any_eq_true]
    simp only [List.contains_iff_mem]
    rfl
  · exact ⟨Search.ne_nil_of_mem_cycles hc, Search.cycle_sublist henough hdeclared hc⟩

example : Search.cycles (fun
    | "a" => ["b"]
    | "b" => ["c", "a"]
    | "c" => ["d"]
    | "d" => ["c"]
    | _ => []) 12 ["d", "a", "c", "b"] = [["d", "c"], ["a", "b"]] := by
  decide

/-! ## Limits -/

/-- **Limits are assigned per component.** The assignment fails exactly when some member of a
cycle lacks a limit, and then it names these members in the order of the components. Otherwise
every declared limit is kept, every other member of a cycle gets the least limit that a member of
its own component declares, or the default where none does, and nothing else has a limit. Neither
the order of the components nor that of their members plays a part. -/
theorem limits_per_component (d : Definition) (entry : String) :
    let cycles := (draft d entry).1.cycles
    ((∃ e, d.assignLimits cycles = .error e) ↔ ∃ m, d.LacksLimit cycles m) ∧
    (∀ e, d.assignLimits cycles = .error e → e ∈ (draft d entry).2 ∧
      ∃ missing, e = .cycleWithoutLimit missing ∧ missing.Sublist cycles.flatten ∧
        ∀ m, m ∈ missing ↔ d.LacksLimit cycles m) ∧
    (∀ limits, d.assignLimits cycles = .ok limits → (draft d entry).1.limits = limits ∧
      (∀ m n, d.loopLimits.get? m = some n → limits.get? m = some n) ∧
      (∀ c ∈ cycles, ∀ m ∈ c, d.loopLimits.get? m = none →
        (∀ n, IsLeast (d.declaredIn c) n → limits.get? m = some n) ∧
        ((∀ k ∈ c, d.loopLimits.get? k = none) →
          (limits.get? m).isSome ∧ limits.get? m = d.defaults.loopLimit)) ∧
      ∀ m, m ∉ cycles.flatten → d.loopLimits.get? m = none → limits.get? m = none) ∧
    ∀ others, Definition.Regrouped cycles others →
      (∀ limits, d.assignLimits cycles = .ok limits → ∃ same, d.assignLimits others = .ok same ∧
        ∀ m, same.get? m = limits.get? m) ∧
      ∀ missing, d.assignLimits cycles = .error (.cycleWithoutLimit missing) → ∃ same,
        d.assignLimits others = .error (.cycleWithoutLimit same) ∧ same.Perm missing := by
  intro cycles
  have hcycles : cycles = cyclesOf d := draft_cycles d entry
  have hnodup : cycles.flatten.Nodup := hcycles ▸ nodup_cyclesOf d
  refine ⟨?_, fun e he => ?_, fun limits hlimits => ⟨?_, fun m n hm => ?_,
    fun c hc m hm hdeclared => ?_, fun m hm hdeclared => ?_⟩,
    fun others h => Definition.assignLimits_regroup h hnodup⟩
  · constructor
    · rintro ⟨e, he⟩
      obtain ⟨m, hm⟩ :=
        List.exists_mem_of_ne_nil _ ((Definition.assignLimits_eq_error_iff hnodup).1 he).1
      exact ⟨m, Definition.mem_unlimited_iff.1 hm⟩
    · rintro ⟨m, hm⟩
      refine ⟨_, (Definition.assignLimits_eq_error_iff hnodup).2 ⟨?_, rfl⟩⟩
      exact List.ne_nil_of_mem (Definition.mem_unlimited_iff.2 hm)
  · obtain ⟨_, hmissing⟩ := (Definition.assignLimits_eq_error_iff hnodup).1 he
    exact ⟨mem_errors_draft.2 (.inr (.inr (hcycles ▸ he))), _, hmissing,
      d.unlimited_sublist cycles, fun m => Definition.mem_unlimited_iff⟩
  · exact draft_limits entry (hcycles ▸ hlimits)
  · rw [Definition.get?_of_assignLimits hnodup hlimits, hm]
    rfl
  · obtain ⟨hinherits, hsome⟩ := Definition.get?_of_mem_cycle hnodup hlimits hc hm hdeclared
    refine ⟨fun n hn => ?_, fun hnone => ?_⟩
    · rw [hinherits, Definition.inheritedLimit?_of_isLeast hn]
    · rw [Definition.inheritedLimit?_of_forall_none hnone] at hinherits hsome
      exact ⟨hinherits ▸ hsome, hinherits⟩
  · rw [Definition.get?_of_assignLimits hnodup hlimits, hdeclared,
      Definition.inheritedIn_of_not_mem hm]
    rfl

end WorkflowGraph.TransitionTable
