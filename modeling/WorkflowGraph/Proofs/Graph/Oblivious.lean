import WorkflowGraph.Proofs.Activity.Oblivious
import WorkflowGraph.Proofs.Graph.Uninterrupted

/-!
# Nodes that are entered afresh

A subgraph that is entered without a value of the caller forgets its thread before it loads it, and
so does every subgraph inside it. A node that is entered afresh therefore learns nothing from its
stores, and it suspends only where it is an interrupt, or a subgraph with such a node inside
(`GraphNode.runner_oblivious`). A map never does, whatever its tasks come to.
-/

set_option autoImplicit false

namespace WorkflowGraph

open Activity

variable {P : Store → Prop} {Q : NodeRun → Prop}

/-- Whether an outcome is no suspension, unless there may be one. -/
def NodeOutcome.HaltsOnly (may : Prop) : NodeOutcome → Prop
  | .proceed _ => True
  | .suspend _ => may

theorem NodeOutcome.HaltsOnly.mono {may other : Prop} {outcome : NodeOutcome}
    (h : outcome.HaltsOnly may) (hmay : may → other) : outcome.HaltsOnly other := by
  cases outcome with
  | proceed => trivial
  | suspend => exact hmay h

/-- Whether the execution of a node ends suspended only where it may. -/
def NodeRun.HaltsOnly (may : Prop) (r : NodeRun) : Prop :=
  NodeFrame.Yields (NodeOutcome.HaltsOnly may) r.result

/-- Whether an attempt ends suspended only where it may. -/
def Attempt.HaltsOnly (may : Prop) (a : Attempt) : Prop :=
  NodeFrame.Yields (NodeOutcome.HaltsOnly may) a.result

/-! ## Executing nodes -/

namespace NodeFrame

variable {f : NodeFrame} {b : Behaviour} {s : State} {scope : Scope} {may : Prop}

theorem limited_oblivious {p : Activity Attempt} {post : Attempt → Prop}
    (h : p.Oblivious P Q post none) (hlate : ∀ limit, post (.of (.error (.timeout f.id limit)))) :
    (f.limited scope p).Oblivious P Q post none := by
  unfold limited
  split
  · exact h
  · refine oblivious_bind (h.within _) ?_
    rintro (_ | ⟨a, left⟩) ha
    · exact hlate _
    · exact ha _ rfl

/-- By induction on the attempts that are left. -/
theorem attempts_oblivious (hb : ∀ v : Visit, v.scope = scope → v.resume = none →
      (b v).Oblivious P Q (Attempt.HaltsOnly may) none)
    (number : Nat) (errors : List ErrorRecord) (further : Nat) :
    (f.attempts b s scope none number errors further).Oblivious P Q (NodeRun.HaltsOnly may)
      none := by
  have hattempt (number : Nat) :
      (f.limited scope (b (attempts.visit f s scope none number))).Oblivious P Q
        (Attempt.HaltsOnly may) none :=
    limited_oblivious (hb _ rfl rfl) fun _ => by rintro _ ⟨⟩
  have hgiveUp (e : TaskError) (number : Nat) (errors : List ErrorRecord) :
      (f.giveUp e number s errors).HaltsOnly may :=
    giveUp_yields (Q := NodeOutcome.HaltsOnly may) (fun _ => trivial) e number errors
  induction further generalizing number errors with
  | zero =>
    rw [attempts_eq]
    refine oblivious_bind (hattempt number) fun a ha => ?_
    unfold afterAttempt
    cases hresult : a.result with
    | ok outcome =>
      rintro _ ⟨⟩
      exact ha outcome hresult
    | error e => exact hgiveUp e number _
  | succ further ih =>
    rw [attempts_eq]
    refine oblivious_bind (hattempt number) fun a ha => ?_
    unfold afterAttempt
    cases hresult : a.result with
    | ok outcome =>
      rintro _ ⟨⟩
      exact ha outcome hresult
    | error e =>
      dsimp only
      split
      · exact oblivious_bind (oblivious_sleep _) fun _ _ => ih _ _
      · exact ih _ _

theorem execute_oblivious (hb : ∀ v : Visit, v.scope = scope → v.resume = none →
      (b v).Oblivious P Q (Attempt.HaltsOnly may) none) :
    (f.execute b s scope none).Oblivious P Q (NodeRun.HaltsOnly may) none := by
  unfold execute
  split
  · rintro _ ⟨⟩
    trivial
  · split
    · exact giveUp_yields (Q := NodeOutcome.HaltsOnly may) (fun _ => trivial) _ _ _
    · exact attempts_oblivious hb _ _ _

end NodeFrame

/-! ## Runs of a graph -/

namespace GraphFrame

variable {g : GraphFrame} {runner? : String → Option Runner} {thread : String} {may : Prop}
  {β : Type} {post : β → Prop} (hstore : ∀ store, g.store = some store → P store)
  (hthread : thread ≠ "")

include hstore hthread

/-- Who forgets a thread goes on where it has just been forgotten. -/
theorem reset_oblivious {next : Except RunError Unit → Activity β}
    (h : (next (.ok ())).Oblivious P Q post (g.store.map (·, thread))) :
    (g.reset thread >>= next).Oblivious P Q post none := by
  unfold reset
  cases hs : g.store with
  | none =>
    rw [hs] at h
    exact h
  | some store =>
    rw [hs] at h
    exact ⟨⟨hstore store hs, hthread⟩, h⟩

/-- Who loads a thread that has just been forgotten goes on without a checkpoint. -/
theorem load_oblivious {next : Except RunError (Option Checkpoint) → Activity β}
    (h : (next (.ok none)).Oblivious P Q post none) :
    (g.load thread >>= next).Oblivious P Q post (g.store.map (·, thread)) := by
  unfold load
  cases hs : g.store with
  | none => exact h
  | some store => exact ⟨⟨hstore store hs, hthread⟩, rfl, h⟩

theorem save_oblivious (s : State) (next : Option String) :
    (g.save thread s next).Oblivious P Q (fun _ => True) none := by
  unfold save
  cases hs : g.store with
  | none => trivial
  | some store =>
    refine ⟨⟨hstore store hs, hthread⟩, ?_⟩
    rintro (e | _)
    · trivial
    · dsimp only [Activity.bind]
      split
      · trivial
      · next keep _ =>
        exact ⟨⟨⟨hstore store hs, hthread⟩, Nat.le_max_right keep 1⟩, fun _ => rfl, trivial⟩

theorem settle_oblivious (node : String) (s : State) {outcome : NodeOutcome}
    (houtcome : outcome.HaltsOnly may) :
    (g.settle thread node s outcome).Oblivious P Q (fun r => r.1.IsSuspended → may) none := by
  have hsaved (s : State) (next : Option String) (onward : Onward)
      (honward : onward.IsSuspended → may) :
      (g.saveThen thread s next onward).Oblivious P Q (fun r => r.1.IsSuspended → may) none := by
    refine oblivious_bind (save_oblivious hstore hthread s next) ?_
    rintro (e | _) _
    · exact False.elim
    · exact honward
  unfold settle
  cases outcome with
  | suspend suspension => exact hsaved _ _ _ fun _ => houtcome
  | proceed update =>
    dsimp only
    split
    · exact False.elim
    · split
      · exact hsaved _ _ _ False.elim
      · exact False.elim
    · exact hsaved _ _ _ False.elim

variable (hruns : ∀ id runner, runner? id = some runner → ∀ s,
  (runner s ⟨thread, g.config⟩ none).Oblivious P Q (NodeRun.HaltsOnly may) none)

include hruns

theorem enter_oblivious (budget : Option Nat) (s : State) (node : String) :
    (g.enter runner? ⟨thread, g.config⟩ budget s node none).Oblivious P Q
      (fun r => r.onward.IsSuspended → may) none := by
  unfold enter
  cases hrunner : runner? node with
  | none => exact False.elim
  | some runner =>
    dsimp only
    split
    · exact False.elim
    · unfold carryOut
      refine oblivious_bind ((hruns node runner hrunner _).withinOption budget) ?_
      rintro (_ | ⟨r, left⟩) hr
      · exact False.elim
      · dsimp only
        split
        · exact False.elim
        · next outcome hresult =>
          have hhalts := hr _ rfl outcome hresult
          exact oblivious_bind (settle_oblivious hstore hthread _ _ hhalts) fun _ hx => hx

/-- A walk that starts afresh suspends only where one of its nodes may. By induction on its steps:
also the first node is entered without a value. -/
theorem walk_oblivious (s : State) (start : String) :
    (g.walk runner? s start thread none).Oblivious P Q (fun r => r.IsSuspended → may) none := by
  have hwalk (budget : Option Nat) (s : State) (node : String) (steps : Nat) :
      (g.walkFrom runner? ⟨thread, g.config⟩ budget s node none steps).Oblivious P Q
        (fun r => (Onward.stop r.1).IsSuspended → may) none := by
    induction steps generalizing budget s node with
    | zero => exact False.elim
    | succ steps ih =>
      rw [walkFrom_succ]
      refine oblivious_bind (enter_oblivious hstore hthread hruns budget s node) fun r hr => ?_
      unfold goOn
      split
      · next honward =>
        rw [honward] at hr
        exact hr
      · exact ih _ _ _
  rw [walk_eq]
  refine oblivious_bind (hwalk _ _ _ _) ?_
  rintro ⟨_ | _ | _, t⟩ hr
  · exact False.elim
  · exact hr
  · exact False.elim

/-- A thread that has just been forgotten is run from the entry on. -/
theorem runThread_oblivious (input : Fields) :
    (g.runThread runner? input thread).Oblivious P Q (fun r => r.IsSuspended → may)
      (g.store.map (·, thread)) :=
  load_oblivious hstore hthread (walk_oblivious hstore hthread hruns _ _)

end GraphFrame

/-! ## Nodes -/

namespace GraphNode

/-- Whether a node may suspend where it is entered afresh: an interrupt, or a subgraph with such a
node. -/
inductive Halts : GraphNode → Prop where
  | interrupt (frame : NodeFrame) (node : InterruptNode) : Halts (.leaf frame (.interrupt node))
  | subgraph (frame : NodeFrame) (mappings : FieldMappings) (graph : GraphFrame)
    {nodes : List (String × GraphNode)} {p : String × GraphNode} (hp : p ∈ nodes)
    (h : Halts p.2) : Halts (.subgraph frame mappings graph nodes)

/-- Whether no map that a node is or that stands inside it runs a node that suspends, unless there
may be one. -/
def MapsHaltOnly (may : Prop) (node : GraphNode) : Prop :=
  ∀ frame spec inner, (GraphNode.map frame spec inner).Inside node → inner.Halts → may

theorem action_oblivious (action : Action) (frame : NodeFrame) (v : Visit) :
    (action.behaviour frame.id v).Oblivious P Q
      (Attempt.HaltsOnly (GraphNode.leaf frame action).Halts) none := by
  have hholds := action.behaviour_holds (Oblivious.discipline P Q).toJudgement
    (O := fun _ => True) frame.id v
  refine (hholds.and_obeys (action.behaviour_obeys frame.id v)).mono ?_
  rintro a ⟨-, ha⟩ (update | suspension) hresult
  · trivial
  · obtain ⟨n, message, rfl, -⟩ := ha suspension hresult
    exact .interrupt frame n

/-- What the tasks of a map come to is joined, and does not suspend. -/
theorem map_behaviour_oblivious (n : MapNode) (id : String) {inner : Runner} {v : Visit}
    (h : ∀ s index, (inner s (MapNode.taskScope id v.scope index) none).Oblivious P Q Q none) :
    (n.behaviour id inner v).Oblivious P Q
      (fun a => ∀ items, n.items id v.state = .ok items →
        ∃ runs, a = n.join id runs ∧ ∀ r ∈ runs, Q r) none := by
  unfold MapNode.behaviour
  split
  · next e he =>
    intro items hitems
    rw [he] at hitems
    cases hitems
  · exact fun _ _ => ⟨[], rfl, by simp⟩
  · dsimp only
    rw [MapNode.map_indexed]
    exact oblivious_bind (oblivious_all _ fun i => h _ _) fun runs hruns _ _ => ⟨runs, rfl, hruns⟩

/-- A graph inside a node learns nothing from its stores on a thread that has been forgotten, and
suspends only if one of its nodes may. -/
theorem runThread_oblivious {graph : GraphFrame} {nodes : List (String × GraphNode)}
    (hgraph : StoredIn P graph nodes)
    (hnodes : ∀ p ∈ nodes, ∀ s scope,
      (p.2.runner s scope none).Oblivious P Q (NodeRun.HaltsOnly p.2.Halts) none)
    (input : Fields) {thread : String} (hthread : thread ≠ "") :
    (graph.runThread (runnerIn? nodes) input thread).Oblivious P Q
      (fun r => r.IsSuspended → ∃ p ∈ nodes, p.2.Halts) (graph.store.map (·, thread)) := by
  refine GraphFrame.runThread_oblivious hgraph hthread (fun id runner hrunner s => ?_) input
  obtain ⟨node, hmem, rfl⟩ := exists_of_runnerIn? hrunner
  refine (hnodes _ hmem s _).mono fun r hr outcome hresult => ?_
  exact (hr outcome hresult).mono fun h => ⟨_, hmem, h⟩

theorem subgraph_behaviour_oblivious (frame : NodeFrame) (mappings : FieldMappings)
    {graph : GraphFrame} {nodes : List (String × GraphNode)} (hgraph : StoredIn P graph nodes)
    (hnodes : ∀ p ∈ nodes, ∀ s scope,
      (p.2.runner s scope none).Oblivious P Q (NodeRun.HaltsOnly p.2.Halts) none)
    {v : Visit} (hv : v.resume = none) :
    (mappings.behaviour frame.id graph (runnerIn? nodes) v).Oblivious P Q
      (Attempt.HaltsOnly (GraphNode.subgraph frame mappings graph nodes).Halts) none := by
  unfold FieldMappings.behaviour
  rw [hv]
  have hchild := (Thread.inside_childThread v.scope frame.id).ne_empty
  refine GraphFrame.reset_oblivious hgraph hchild ?_
  refine oblivious_bind (runThread_oblivious hgraph hnodes _ hchild) ?_
  rintro (t | ⟨pending, t⟩ | ⟨e, t⟩) hr outcome hresult
  · cases hresult
    trivial
  · cases hresult
    obtain ⟨p, hp, h⟩ := hr trivial
    exact .subgraph frame mappings graph hp h
  · cases hresult

/-- **A node that is entered afresh learns nothing from its stores**, and suspends only if it is one
that may. By induction on the graphs inside it. -/
theorem runner_oblivious {may : Prop} {node : GraphNode} (h : node.EveryGraph (StoredIn P))
    (hmaps : node.MapsHaltOnly may) (s : State) (scope : Scope) :
    (node.runner s scope none).Oblivious P (NodeRun.HaltsOnly may) (NodeRun.HaltsOnly node.Halts)
      none := by
  induction h generalizing s scope with
  | leaf frame action =>
    apply NodeFrame.execute_oblivious
    exact fun v _ _ => action_oblivious action frame v
  | @map frame spec inner _ ih =>
    apply NodeFrame.execute_oblivious
    intro v _ _
    have htasks (s : State) (index : Nat) :
        (inner.runner s (MapNode.taskScope frame.id v.scope index) none).Oblivious P
          (NodeRun.HaltsOnly may) (NodeRun.HaltsOnly may) none := by
      refine (ih (fun f spec node hinside => hmaps f spec node (.map _ _ hinside)) s _).mono ?_
      exact fun r hr outcome hresult => (hr outcome hresult).mono (hmaps frame spec inner .self)
    have hnever := @MapNode.behaviour_obeys (fun _ => True) (fun _ => False)
      ⟨spec, inner.frame.output⟩ frame.id inner.runner v fun _ _ => obeys_trivial _
    refine ((map_behaviour_oblivious _ frame.id htasks).and_obeys hnever).mono ?_
    rintro a ⟨-, ha⟩ (update | suspension) hresult
    · trivial
    · exact (ha suspension hresult).elim
  | @subgraph frame mappings graph nodes here _ ih =>
    apply NodeFrame.execute_oblivious
    intro v _ hv
    refine subgraph_behaviour_oblivious frame mappings here
      (fun p hp s scope => ih p hp ?_ s scope) hv
    exact fun frame spec inner hinside => hmaps frame spec inner (.subgraph _ _ _ hp hinside)

theorem runner_oblivious_trivial {node : GraphNode} (h : node.EveryGraph (StoredIn P)) (s : State)
    (scope : Scope) :
    (node.runner s scope none).Oblivious P (NodeRun.HaltsOnly True) (NodeRun.HaltsOnly node.Halts)
      none :=
  runner_oblivious h (fun _ _ _ _ _ => trivial) s scope

end GraphNode

end WorkflowGraph
