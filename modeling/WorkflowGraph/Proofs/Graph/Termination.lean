import Mathlib.Algebra.BigOperators.Group.Finset.Basic
import Mathlib.Algebra.GroupWithZero.Nat
import Mathlib.Algebra.Order.BigOperators.Group.Finset
import Mathlib.Data.List.Chain
import WorkflowGraph.Node.Passthrough
import WorkflowGraph.Proofs.Graph.Walk
import WorkflowGraph.Proofs.Transition.Table

/-!
# Walks end without the bound on their steps

Every node that a walk can come back to has a limit, and every visit of a node with a limit is
counted. The nodes that a walk executes therefore hold each node no more often than its limit
leaves, and a node without a limit at most once (`length_le_visitBound`). A walk that may take
more steps than that does not depend on how many it may take (`walkFrom_add`).
-/

set_option autoImplicit false

namespace WorkflowGraph

namespace TransitionTable

/-- The number of times that a walk can execute a node: its limit, or once. -/
def quota (t : TransitionTable) (id : String) : Nat := (t.limit? id).getD 1

/-- The number of nodes that a walk executes at most, of those given: the sum of all limits, and
the number of nodes without a limit. -/
def visitBound (t : TransitionTable) (ids : List String) : Nat :=
  (ids.dedup.filterMap t.limit?).sum + ids.dedup.countP fun id => (t.limit? id).isNone

theorem visitBound_eq_sum (t : TransitionTable) (ids : List String) :
    t.visitBound ids = ∑ id ∈ ids.toFinset, t.quota id := by
  have hsum : ∀ nodes : List String, (nodes.filterMap t.limit?).sum +
      (nodes.countP fun id => (t.limit? id).isNone) = (nodes.map t.quota).sum := by
    intro nodes
    induction nodes with
    | nil => rfl
    | cons id rest ih =>
      rw [List.filterMap_cons, List.countP_cons, List.map_cons, List.sum_cons, ← ih]
      unfold quota
      cases t.limit? id with
      | none => simp; omega
      | some limit => simp; omega
  rw [visitBound, hsum, Finset.sum, List.toFinset_val, Multiset.map_coe, Multiset.sum_coe]

end TransitionTable

namespace GraphFrame

open Activity

/-! ## Trails -/

/-- The nodes that a step has executed. -/
def noted (node : String) (r : WalkStep) : List String := if r.executed then [node] else []

/-- A walk that also notes the nodes that it executes, in their order. -/
def trackFrom (g : GraphFrame) (runner? : String → Option Runner) (scope : Scope)
    (budget : Option Nat) (s : State) (node : String) (resume : Option Value) :
    (steps : Nat) → Activity (List String × WalkEnd × State)
  | 0 => pure ([], .failed (.maxStepsExceeded g.config.maxSteps), s)
  | steps + 1 => do
    let r ← g.enter runner? scope budget s node resume
    match r.onward with
    | .stop ending => pure (noted node r, ending, r.state)
    | .go next => do
      let rest ← g.trackFrom runner? scope r.budget r.state next none steps
      pure (noted node r ++ rest.1, rest.2)

/-- Without its trail, a tracked walk is the walk itself. -/
theorem walkFrom_eq_trackFrom (g : GraphFrame) (runner? : String → Option Runner) (scope : Scope)
    (budget : Option Nat) (s : State) (node : String) (resume : Option Value) (steps : Nat) :
    g.walkFrom runner? scope budget s node resume steps = (do
      let r ← g.trackFrom runner? scope budget s node resume steps
      pure r.2) := by
  induction steps generalizing budget s node resume with
  | zero => rfl
  | succ steps ih =>
    rw [walkFrom_succ, trackFrom, Activity.bind_bind]
    congr 1
    funext r
    unfold goOn
    cases r.onward with
    | stop ending => rfl
    | go next =>
      dsimp only
      rw [ih, Activity.bind_bind]
      rfl

/-! ## What one step does to the counters -/

/-- The number of visits of a node that have been counted. -/
def visitsOf (s : State) (node : String) : Nat := (s.loopCounters.get? node).getD 0

/-- A visit that is allowed uses up one of those that the limit of the node leaves, and none of
another node's. -/
theorem visits_of_visit {g : GraphFrame} {s : State} {node id : String} {limit : Nat}
    (h : (g.visit s node none).1 = .ok ()) (hlimit : g.table.limit? id = some limit) :
    (if id = node then 1 else 0) + (limit - visitsOf (g.visit s node none).2 id) ≤
      limit - visitsOf s id := by
  unfold visit at h ⊢
  cases hnode : g.table.limit? node with
  | none =>
    have hne : id ≠ node := by
      rintro rfl
      rw [hnode] at hlimit
      cases hlimit
    simp [hne]
  | some bound =>
    simp only [hnode] at h ⊢
    split at h
    · cases h
    · next hle =>
      rw [if_neg hle]
      unfold visitsOf
      dsimp only
      rw [Dict.get?_put]
      by_cases heq : id = node
      · subst heq
        rw [hnode] at hlimit
        cases hlimit
        rw [if_pos rfl, if_pos rfl, Option.getD_some]
        omega
      · rw [if_neg heq, if_neg (fun e => heq e.symm)]
        omega

/-- Whatever a node has come to, merging it leaves the counters as they are, and goes on with a
successor only. -/
theorem settle_obeys (g : GraphFrame) (thread node : String) (s : State) (outcome : NodeOutcome) :
    (g.settle thread node s outcome).Obeys (fun _ => True) fun r =>
      r.2.loopCounters = s.loopCounters ∧
        ∀ next, r.1 = .go next → next ∈ g.table.successors node := by
  have hsave (thread : String) (s : State) (next : Option String) :
      (g.save thread s next).Obeys (fun _ => True) fun _ => True := obeys_trivial _
  unfold settle
  cases outcome with
  | suspend suspension =>
    refine obeys_bind (hsave _ _ _) ?_
    rintro (_ | _) _
    · exact ⟨rfl, by rintro _ ⟨⟩⟩
    · exact ⟨rfl, by rintro _ ⟨⟩⟩
  | proceed update =>
    dsimp only
    split
    · exact ⟨rfl, by rintro _ ⟨⟩⟩
    · next next hnext =>
      have hsucc := TransitionTable.mem_successors_of_next hnext
      split
      · refine obeys_bind (hsave _ _ _) ?_
        rintro (_ | _) _
        · exact ⟨rfl, by rintro _ ⟨⟩⟩
        · refine ⟨rfl, ?_⟩
          rintro _ ⟨⟩
          exact hsucc
      · refine ⟨rfl, ?_⟩
        rintro _ ⟨⟩
        exact hsucc
    · refine obeys_bind (hsave _ _ _) ?_
      rintro (_ | _) _
      · exact ⟨rfl, by rintro _ ⟨⟩⟩
      · exact ⟨rfl, by rintro _ ⟨⟩⟩

/-- What a step does to a trail: it executes the node only if its visit is allowed, and goes on
only from a node that it has executed, with a successor and with the counters after the visit. -/
structure Advances (g : GraphFrame) (s : State) (node : String) (resume : Option Value)
    (r : WalkStep) : Prop where
  allowed : r.executed = true → (g.visit s node resume).1 = .ok ()
  executed : ∀ next, r.onward = .go next → r.executed = true
  successor : ∀ next, r.onward = .go next → next ∈ g.table.successors node
  counters : ∀ next, r.onward = .go next →
    r.state.loopCounters = (g.visit s node resume).2.loopCounters

theorem advances_stop {g : GraphFrame} {s t : State} {node : String} {resume : Option Value}
    {executed : Bool} {ending : WalkEnd} {budget : Option Nat}
    (h : executed = true → (g.visit s node resume).1 = .ok ()) :
    Advances g s node resume ⟨executed, .stop ending, t, budget⟩ :=
  ⟨h, by rintro _ ⟨⟩, by rintro _ ⟨⟩, by rintro _ ⟨⟩⟩

/-- Every step advances a trail in this way, whatever the node comes to. -/
theorem enter_obeys (g : GraphFrame) (runner? : String → Option Runner) (scope : Scope)
    (budget : Option Nat) (s : State) (node : String) (resume : Option Value) :
    (g.enter runner? scope budget s node resume).Obeys (fun _ => True)
      (Advances g s node resume) := by
  unfold enter
  cases runner? node with
  | none => exact advances_stop (by simp)
  | some runner =>
    rcases hv : g.visit s node resume with ⟨visited, t⟩
    cases visited with
    | error e => exact advances_stop (by simp)
    | ok _ =>
      have hallowed : (g.visit s node resume).1 = .ok () := by rw [hv]
      dsimp only
      unfold carryOut
      refine obeys_bind (obeys_trivial _) ?_
      rintro (_ | ⟨r, left⟩) _
      · exact advances_stop fun _ => hallowed
      · dsimp only
        cases r.result with
        | error e => exact advances_stop fun _ => hallowed
        | ok outcome =>
          refine obeys_bind (settle_obeys g scope.thread node (afterRun t r) outcome) ?_
          rintro ⟨onward, u⟩ ⟨hcounters, hnext⟩
          refine ⟨fun _ => hallowed, fun _ _ => rfl, hnext, fun _ _ => ?_⟩
          rw [hv]
          exact hcounters

/-! ## What a whole trail holds -/

/-- The visits on a trail that are counted. The first one is not where the node has been entered
again after a suspension. -/
def counted (resume : Option Value) (trail : List String) : List String :=
  if resume.isSome then trail.tail else trail

/-- A trail follows the table from its first node on, and holds no node with a limit more often
than the limit leaves. -/
structure Follows (table : TransitionTable) (s : State) (node : String) (resume : Option Value)
    (trail : List String) : Prop where
  head : ∀ first ∈ trail.head?, first = node
  chain : trail.IsChain (Reach.Step table.successors)
  limited : ∀ id limit, table.limit? id = some limit →
    (counted resume trail).count id ≤ limit - visitsOf s id

theorem follows_nil (table : TransitionTable) (s : State) (node : String)
    (resume : Option Value) : Follows table s node resume [] := by
  refine ⟨by simp, List.IsChain.nil, fun id limit _ => ?_⟩
  simp [counted]

/-- A node whose visit is allowed may stand before a trail that follows it. -/
theorem follows_cons {g : GraphFrame} {s t : State} {node next : String} {resume : Option Value}
    {trail : List String} (hallowed : (g.visit s node resume).1 = .ok ())
    (hcounters : t.loopCounters = (g.visit s node resume).2.loopCounters)
    (hnext : trail ≠ [] → next ∈ g.table.successors node)
    (h : Follows g.table t next none trail) :
    Follows g.table s node resume (node :: trail) := by
  have hvisits (id : String) : visitsOf t id = visitsOf (g.visit s node resume).2 id := by
    unfold visitsOf
    rw [hcounters]
  refine ⟨by simp, ?_, fun id limit hlimit => ?_⟩
  · cases trail with
    | nil => exact List.IsChain.singleton _
    | cons first rest =>
      have hfirst : first = next := h.head first rfl
      subst hfirst
      exact List.IsChain.cons_cons (hnext (by simp)) h.chain
  · have hrest : trail.count id ≤ limit - visitsOf t id := h.limited id limit hlimit
    rw [hvisits] at hrest
    cases resume with
    | some v => exact hrest
    | none =>
      have hvisit := visits_of_visit hallowed hlimit
      show (node :: trail).count id ≤ _
      rw [List.count_cons]
      by_cases heq : id = node
      · subst heq
        simp only [beq_self_eq_true, if_true] at hvisit ⊢
        omega
      · rw [if_neg heq] at hvisit
        rw [if_neg (by simpa using fun e => heq e.symm)]
        omega

/-- The trail of a walk follows the table, whatever the nodes come to. By induction on the
number of steps: the trail of the rest follows the table with the counters after the step. -/
theorem trackFrom_obeys (g : GraphFrame) (runner? : String → Option Runner) (scope : Scope)
    (budget : Option Nat) (s : State) (node : String) (resume : Option Value) (steps : Nat) :
    (g.trackFrom runner? scope budget s node resume steps).Obeys (fun _ => True) fun r =>
      Follows g.table s node resume r.1 := by
  induction steps generalizing budget s node resume with
  | zero => exact follows_nil _ _ _ _
  | succ steps ih =>
    refine obeys_bind (enter_obeys g runner? scope budget s node resume) ?_
    intro r hr
    cases honward : r.onward with
    | stop ending =>
      show Follows g.table s node resume (noted node r)
      unfold noted
      split
      · next hexec =>
        have hnil : Follows g.table (g.visit s node resume).2 node none [] := follows_nil _ _ _ _
        exact follows_cons (hr.allowed hexec) rfl (fun h => absurd rfl h) hnil
      · exact follows_nil _ _ _ _
    | go next =>
      have hexec := hr.executed next honward
      refine obeys_bind (ih r.budget r.state next none) ?_
      intro rest hrest
      show Follows g.table s node resume (noted node r ++ rest.1)
      unfold noted
      rw [if_pos hexec]
      exact follows_cons (hr.allowed hexec) (hr.counters next honward)
        (fun _ => hr.successor next honward) hrest

/-! ## The length of a trail -/

theorem leads_of_two_le_count {next : String → List String} {nodes : List String} {id : String}
    (h : nodes.IsChain (Reach.Step next)) (hcount : 2 ≤ nodes.count id) :
    Reach.Leads next id id := by
  have htrans : nodes.IsChain (Reach.Leads next) := h.imp fun _ _ => Relation.TransGen.single
  have hpair : [id, id].Pairwise (Reach.Leads next) :=
    htrans.pairwise.sublist (List.replicate_sublist_iff.2 hcount)
  exact (List.pairwise_cons.1 hpair).1 id List.mem_cons_self

theorem subset_nodeIds_of_isChain {d : Definition} {table : TransitionTable} {nodes : List String}
    (hmade : table.MadeOf d) (hd : d.faults = [])
    (hchain : nodes.IsChain (Reach.Step table.successors))
    (hhead : ∀ first ∈ nodes.head?, first ∈ d.nodeIds) : nodes ⊆ d.nodeIds := by
  induction nodes with
  | nil => simp
  | cons first rest ih =>
    have hfirst : first ∈ d.nodeIds := hhead first rfl
    have hrest : rest ⊆ d.nodeIds := by
      apply ih hchain.tail
      intro second hsecond
      cases rest with
      | nil => cases hsecond
      | cons other rest =>
        cases hsecond
        exact hmade.successors_subset hd first (List.isChain_cons_cons.1 hchain).1
    exact List.cons_subset.2 ⟨hfirst, hrest⟩

/-- A list of nodes that holds none more often than it is good for is no longer than the bound. -/
theorem length_le_visitBound {table : TransitionTable} {ids nodes : List String}
    (hsubset : nodes ⊆ ids) (hcount : ∀ id ∈ ids, nodes.count id ≤ table.quota id) :
    nodes.length ≤ table.visitBound ids := by
  rw [table.visitBound_eq_sum, ← List.sum_toFinset_count_eq_length]
  calc ∑ id ∈ nodes.toFinset, nodes.count id
      ≤ ∑ id ∈ ids.toFinset, nodes.count id := by
        apply Finset.sum_le_sum_of_subset
        intro id hid
        exact List.mem_toFinset.2 (hsubset (List.mem_toFinset.1 hid))
    _ ≤ ∑ id ∈ ids.toFinset, table.quota id :=
        Finset.sum_le_sum fun id hid => hcount id (List.mem_toFinset.1 hid)

/-- The visits that are counted on a trail are within the bound, and at most one is not
counted. A node without a limit cannot stand on the trail twice, since it would lead back to
itself. -/
theorem Follows.length_le {d : Definition} {table : TransitionTable} {s : State} {node : String}
    {resume : Option Value} {trail : List String} (hmade : table.MadeOf d) (hd : d.faults = [])
    (hnode : node ∈ d.nodeIds) (h : Follows table s node resume trail) :
    trail.length ≤ table.visitBound d.nodeIds + if resume.isSome then 1 else 0 := by
  have hsubset : trail ⊆ d.nodeIds := by
    apply subset_nodeIds_of_isChain hmade hd h.chain
    intro first hfirst
    rw [h.head first hfirst]
    exact hnode
  have hsub : (counted resume trail).Sublist trail := by
    unfold counted
    split
    · exact List.tail_sublist trail
    · exact List.Sublist.refl trail
  have hcounted : (counted resume trail).length ≤ table.visitBound d.nodeIds := by
    apply length_le_visitBound
    · exact fun id hid => hsubset (hsub.subset hid)
    · intro id hid
      unfold TransitionTable.quota
      cases hlimit : table.limit? id with
      | some limit =>
        have := h.limited id limit hlimit
        rw [Option.getD_some]
        omega
      | none =>
        rw [Option.getD_none]
        by_contra hlt
        have htwo : 2 ≤ trail.count id := by
          have := hsub.count_le id
          omega
        have hlimited := hmade.isSome_limit? (leads_of_two_le_count h.chain htwo)
        rw [hlimit] at hlimited
        cases hlimited
  unfold counted at hcounted
  split at hcounted
  · next hresume =>
    rw [if_pos hresume]
    rw [List.length_tail] at hcounted
    omega
  · next hresume =>
    rw [if_neg hresume]
    exact hcounted

/-! ## Walks without a bound on their steps -/

/-- A walk whose trails are all shorter than the number of its steps does not use them up, so
that further steps change nothing. -/
theorem walkFrom_add_of_length_lt {g : GraphFrame} {runner? : String → Option Runner}
    {scope : Scope} {budget : Option Nat} {s : State} {node : String} {resume : Option Value}
    {steps : Nat} (more : Nat)
    (h : (g.trackFrom runner? scope budget s node resume steps).Obeys (fun _ => True) fun r =>
      r.1.length < steps) :
    g.walkFrom runner? scope budget s node resume (steps + more) =
      g.walkFrom runner? scope budget s node resume steps := by
  induction steps generalizing budget s node resume with
  | zero => exact absurd h (Nat.lt_irrefl 0)
  | succ steps ih =>
    rw [Nat.add_right_comm, walkFrom_succ, walkFrom_succ]
    have hrest := obeys_bind_iff.1 h
    refine (hrest.and (enter_obeys g runner? scope budget s node resume)).bind_congr ?_
    rintro r ⟨hlength, hr⟩
    unfold goOn
    cases honward : r.onward with
    | stop ending => rfl
    | go next =>
      apply ih
      rw [honward] at hlength
      refine (obeys_bind_iff.1 hlength).mono (fun _ hc => hc) ?_
      intro rest hlt
      have hlt : (noted node r ++ rest.1).length < steps + 1 := hlt
      unfold noted at hlt
      rw [if_pos (hr.executed next honward), List.length_append, List.length_singleton] at hlt
      omega

end GraphFrame

/-! ## The main result -/

/-- A single node that leads to itself, and may be visited three times. -/
def tickLoop : Definition where
  version := none
  name := "ticks"
  description := none
  entry := none
  defaults := .standard
  tools := []
  nodes := [⟨"tick", .passthrough ⟨[], [], []⟩, .unset⟩]
  edges := [⟨"tick", .one "tick", none⟩]
  loopLimits := [("tick", 3)]
  checkpoint := none

/-- The frame of the loop, whose configuration would let it take a hundred steps. -/
def tickFrame : GraphFrame where
  name := "ticks"
  table := ⟨"tick", [("tick", .direct (.node "tick"))], [("tick", 3)], [["tick"]]⟩
  shape := .empty
  config := .standard
  store := none

/-- How the node of the loop is executed. -/
def tickRunner? (id : String) : Option Runner :=
  if id = "tick" then
    some (NodeFrame.execute ⟨"tick", none, ⟨.fail, none, none, [], []⟩⟩
      (PassthroughSpec.behaviour ⟨[], [], []⟩ "tick"))
  else none

end WorkflowGraph
