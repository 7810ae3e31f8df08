import WorkflowGraph.Proofs.Graph.Calls

/-!
# Disciplines

A judgement is a way to judge activities that follows their constructions: what may be said of parts
may be said of what is put together of them (`Activity.Judgement`). What is judged is an activity
with a postcondition and with the threads that it may touch. A discipline is a judgement of tasks
side by side as well, which must touch different threads; in return it is known of their results
what all tasks are judged by (`Activity.Discipline`). A judgement may hold of what is cut off after
a span of time (`Activity.Judgement.Cuts`); if it does not, what is said here is said of nodes
without timeouts (`GraphNode.Untimed`).

Whatever the judgement is, it holds of calls of executors and tools, of the executions of nodes and
of walks, if it holds of the attempts inside. And every node keeps to every discipline, on the
threads below that of its graph (`GraphNode.runner_holds`), and so does every call of a graph
(`GraphFrame.runThread_holds`, `GraphFrame.resumeThread_holds`). The proof is an induction on the
graphs inside a node, and done here once for all disciplines.
-/

set_option autoImplicit false

namespace WorkflowGraph

/-- A way to judge activities, given which stores may be asked. -/
structure Activity.Judgement (P : Store → Prop) where
  Holds : (String → Prop) → {α : Type} → (α → Prop) → Activity α → Prop
  done : ∀ {O : String → Prop} {α : Type} {post : α → Prop} {a : α}, post a →
    Holds O post (.done a)
  wait : ∀ {O : String → Prop} {α : Type} {post : α → Prop} {span : Nat} {p : Activity α},
    Holds O post p → Holds O post (.wait span p)
  mono : ∀ {O U : String → Prop} {α : Type} {post other : α → Prop} {p : Activity α},
    Holds O post p → (∀ t, O t → U t) → (∀ a, post a → other a) → Holds U other p
  bind : ∀ {O : String → Prop} {α β : Type} {mid : α → Prop} {post : β → Prop} {p : Activity α}
    {next : α → Activity β}, Holds O mid p → (∀ a, mid a → Holds O post (next a)) →
    Holds O post (p >>= next)
  perform : ∀ {O : String → Prop} {c : Call}, c.On (fun store thread => P store ∧ O thread) →
    Holds O (fun _ => True) (Activity.perform c)

/-- A way to judge activities and the tasks that they start, given what is to hold of the result of
every task. -/
structure Activity.Discipline (P : Store → Prop) (Q : NodeRun → Prop) extends
    Activity.Judgement P where
  all : ∀ {O : String → Prop} (limit : Nat) {count : Nat} {tasks : Fin count → Activity NodeRun}
    (Os : Fin count → String → Prop), (∀ i t, Os i t → O t) →
    (∀ i j t, Os i t → Os j t → i = j) → (∀ i, Holds (Os i) Q (tasks i)) →
    Holds O (fun runs => ∀ r ∈ runs, Q r) (Activity.all limit (List.ofFn tasks))

instance {P : Store → Prop} {Q : NodeRun → Prop} :
    CoeOut (Activity.Discipline P Q) (Activity.Judgement P) := ⟨Activity.Discipline.toJudgement⟩

open Activity

variable {P : Store → Prop} (L : Judgement P) {O : String → Prop}

/-- Whether a judgement holds of what is cut off after a span of time if it has held before. -/
def Activity.Judgement.Cuts : Prop :=
  ∀ ⦃O : String → Prop⦄ ⦃α : Type⦄ ⦃post : α → Prop⦄ ⦃p : Activity α⦄ (budget : Nat),
    L.Holds O post p → L.Holds O (fun r => ∀ x, r = some x → post x.1) (p.within budget)

/-! ## Calls of executors and tools -/

namespace Activity.Judgement

variable {α : Type} {post : α → Prop}

theorem sleep (span : Nat) : L.Holds O (fun _ => True) (Activity.sleep span) := by
  unfold Activity.sleep
  split
  · exact L.done trivial
  · exact L.wait (L.done trivial)

theorem ofResponse (r : Response) : L.Holds O (fun _ => True) (Activity.ofResponse r) :=
  L.bind (L.sleep r.delay) fun _ _ => L.done trivial

theorem callTask (e : Executor) (r : TaskRequest) :
    L.Holds O (fun _ => True) (Activity.callTask e r) :=
  L.bind (L.perform trivial) fun a _ => L.ofResponse a

theorem callTool (t : BoundTool) (arguments : Value) :
    L.Holds O (fun _ => True) (Activity.callTool t arguments) :=
  L.bind (L.perform trivial) fun a _ => L.ofResponse a

theorem withinOption {p : Activity α} (h : L.Holds O post p) {budget : Option Nat}
    (hcuts : L.Cuts ∨ budget = none) :
    L.Holds O (fun r => ∀ x, r = some x → post x.1 ∧ (budget = none → x.2 = none))
      (p.withinOption budget) := by
  cases budget with
  | none =>
    refine L.bind h fun a ha => L.done ?_
    rintro _ ⟨⟩
    exact ⟨ha, fun _ => rfl⟩
  | some n =>
    have hcuts : L.Cuts := hcuts.resolve_right (Option.some_ne_none n)
    refine L.bind (hcuts n h) fun r hr => L.done ?_
    intro x hx
    obtain ⟨y, rfl, rfl⟩ := Option.map_eq_some_iff.1 hx
    exact ⟨hr y rfl, fun hnone => (Option.some_ne_none n hnone).elim⟩

end Activity.Judgement

/-! ## Actions -/

/-- Whether an attempt has gone on after no error. -/
def Attempt.IsClean (a : Attempt) : Prop := a.errors = []

namespace AgentNode

theorem answers_holds (n : AgentNode) (calls : List ToolCall) :
    L.Holds O (fun _ => True) (n.answers calls) := by
  induction calls with
  | nil => exact L.done trivial
  | cons c rest ih =>
    have hanswer : L.Holds O (fun _ => True) (n.answer c) := by
      unfold answer
      split
      · exact L.done trivial
      · exact L.bind (L.callTool _ _) fun _ _ => L.done trivial
    exact L.bind hanswer fun _ _ => L.bind ih fun _ _ => L.done trivial

/-- By induction on the turns that are left. -/
theorem converse_holds (n : AgentNode) (id : String) (v : Visit) (history : List Message)
    (values : Fields) (t : Transcript) (turns : Nat) :
    L.Holds O (fun _ => True) (n.converse id v history values t turns) := by
  induction turns generalizing t with
  | zero => exact L.done trivial
  | succ turns ih =>
    unfold converse
    refine L.bind (L.callTask _ _) ?_
    rintro (e | value) _
    · exact L.done trivial
    · dsimp only
      split
      · exact L.done trivial
      · split
        · exact L.done trivial
        · exact L.bind (n.answers_holds L _) fun _ _ => ih _

end AgentNode

/-- An action calls executors and tools, one after the other. -/
theorem Action.behaviour_holds (action : Action) (id : String) (v : Visit) :
    L.Holds O Attempt.IsClean (action.behaviour id v) := by
  cases action with
  | transform n =>
    have hcall : L.Holds O (fun _ => True) (n.call id v) := by
      unfold TransformNode.call
      dsimp only
      split
      · exact L.callTask _ _
      · exact L.callTool _ _
    exact L.bind hcall fun _ _ => L.done rfl
  | router n =>
    unfold behaviour RouterNode.behaviour
    dsimp only
    split
    · exact L.done rfl
    · exact L.bind (L.callTask _ _) fun _ _ => L.done rfl
  | agent n => exact L.bind (n.converse_holds L _ _ _ _ _ _) fun _ _ => L.done rfl
  | passthrough spec => exact L.done rfl
  | interrupt n =>
    have hmessage : L.Holds O (fun _ => True) (n.message id v) := by
      unfold InterruptNode.message
      split
      · exact L.done trivial
      · split
        · exact L.done trivial
        · exact L.callTask _ _
    unfold behaviour InterruptNode.behaviour
    dsimp only
    split
    · exact L.done rfl
    · exact L.bind hmessage fun _ _ => L.done rfl

/-! ## Executing nodes -/

namespace NodeFrame

variable {E : ErrorRecord → Prop} {f : NodeFrame} {b : Behaviour} {s : State} {scope : Scope}
  {resume : Option Value}

theorem limited_holds {p : Activity Attempt} (hcuts : L.Cuts ∨ f.limit? scope = none)
    (hp : L.Holds O (fun a => ∀ e ∈ a.errors, E e) p) :
    L.Holds O (fun a => ∀ e ∈ a.errors, E e) (f.limited scope p) := by
  unfold limited
  split
  · exact hp
  · next limit hlimit =>
    have hcuts : L.Cuts := hcuts.resolve_right (by rw [hlimit]; exact Option.some_ne_none limit)
    refine L.bind (hcuts _ hp) ?_
    rintro (_ | ⟨a, left⟩) ha
    · refine L.done ?_
      rintro e ⟨⟩
    · exact L.done (ha _ rfl)

/-- By induction on the number of further attempts. -/
theorem attempts_holds (hE : ∀ node message step, E (.recovered node message step))
    (hcuts : L.Cuts ∨ f.limit? scope = none)
    (hb : ∀ v : Visit, v.scope = scope → v.resume = resume →
      L.Holds O (fun a => ∀ e ∈ a.errors, E e) (b v)) (number : Nat)
    {errors : List ErrorRecord} (herrors : ∀ e ∈ errors, E e) (further : Nat) :
    L.Holds O (fun r => ∀ e ∈ r.errors, E e)
      (f.attempts b s scope resume number errors further) := by
  have happend {xs ys : List ErrorRecord} (hxs : ∀ e ∈ xs, E e) (hys : ∀ e ∈ ys, E e) :
      ∀ e ∈ xs ++ ys, E e := fun e he => (List.mem_append.1 he).elim (hxs e) (hys e)
  have hrecovered (e : TaskError) : ∀ r ∈ [f.recovered e s], E r := by
    intro r hr
    rw [List.mem_singleton.1 hr]
    exact hE _ _ _
  have hattempt (number : Nat) : L.Holds O (fun a => ∀ e ∈ a.errors, E e)
      (f.limited scope (b (attempts.visit f s scope resume number))) :=
    limited_holds L hcuts (hb _ rfl rfl)
  have hgiveUp (e : TaskError) (attempts : Nat) {errors : List ErrorRecord}
      (herrors : ∀ e ∈ errors, E e) : ∀ r ∈ (f.giveUp e attempts s errors).errors, E r := by
    unfold giveUp
    split
    · exact happend herrors (hrecovered e)
    · exact herrors
  induction further generalizing number errors with
  | zero =>
    rw [attempts_eq]
    refine L.bind (hattempt number) fun a ha => ?_
    unfold afterAttempt
    cases a.result with
    | ok outcome => exact L.done (happend herrors ha)
    | error e => exact L.done (hgiveUp e number (happend herrors ha))
  | succ further ih =>
    rw [attempts_eq]
    refine L.bind (hattempt number) fun a ha => ?_
    unfold afterAttempt
    cases a.result with
    | ok outcome => exact L.done (happend herrors ha)
    | error e =>
      have hnext := ih (number + 1) (happend (happend herrors ha) (hrecovered e))
      dsimp only
      split
      · exact L.bind (L.sleep _) fun _ _ => hnext
      · exact hnext

/-- The execution of a node keeps to a discipline that its attempts keep to. What it has gone on
after are errors of its attempts, and those that it has recovered from. -/
theorem execute_holds (hE : ∀ node message step, E (.recovered node message step))
    (hcuts : L.Cuts ∨ f.limit? scope = none)
    (hb : ∀ v : Visit, v.scope = scope → v.resume = resume →
      L.Holds O (fun a => ∀ e ∈ a.errors, E e) (b v)) :
    L.Holds O (fun r => ∀ e ∈ r.errors, E e) (f.execute b s scope resume) := by
  unfold execute
  split
  · refine L.done ?_
    rintro e ⟨⟩
  · split
    · refine L.done ?_
      unfold giveUp
      split
      · intro e he
        rw [List.mem_singleton.1 he]
        exact hE _ _ _
      · rintro e ⟨⟩
    · refine attempts_holds L hE hcuts hb 1 ?_ _
      rintro e ⟨⟩

end NodeFrame

/-! ## Runs of a graph -/

namespace GraphFrame

variable {g : GraphFrame} {runner? : String → Option Runner} {thread : String}
  (hstore : ∀ store, g.store = some store → P store ∧ O thread)

include hstore

theorem load_holds : L.Holds O (fun _ => True) (g.load thread) := by
  unfold load
  split
  · exact L.done trivial
  · next store hs => exact L.bind (L.perform (hstore store hs)) fun _ _ => L.done trivial

theorem reset_holds : L.Holds O (fun _ => True) (g.reset thread) := by
  unfold reset
  split
  · exact L.done trivial
  · next store hs => exact L.bind (L.perform (hstore store hs)) fun _ _ => L.done trivial

theorem save_holds (s : State) (next : Option String) :
    L.Holds O (fun _ => True) (g.save thread s next) := by
  unfold save
  split
  · exact L.done trivial
  · next store hs =>
    refine L.bind (L.perform (hstore store hs)) ?_
    rintro (e | _) _
    · exact L.done trivial
    · dsimp only
      split
      · exact L.done trivial
      · next keep _ =>
        have hprune : (Call.prune store thread (max keep 1)).On fun store t => P store ∧ O t :=
          ⟨hstore store hs, Nat.le_max_right keep 1⟩
        exact L.bind (L.perform hprune) fun _ _ => L.done trivial

theorem settle_holds (node : String) (s : State) (outcome : NodeOutcome) :
    L.Holds O (fun _ => True) (g.settle thread node s outcome) := by
  have hsaved (s : State) (next : Option String) (onward : Onward) :
      L.Holds O (fun _ => True) (g.saveThen thread s next onward) := by
    refine L.bind (save_holds L hstore s next) ?_
    rintro (e | _) _
    · exact L.done trivial
    · exact L.done trivial
  unfold settle
  cases outcome with
  | suspend suspension => exact hsaved _ _ _
  | proceed update =>
    dsimp only
    split
    · exact L.done trivial
    · split
      · exact hsaved _ _ _
      · exact L.done trivial
    · exact hsaved _ _ _

section Walk

variable {resume : Option Value} (hruns : ∀ id runner, runner? id = some runner → ∀ s r,
  (resume = none → r = none) → L.Holds O (fun _ => True) (runner s ⟨thread, g.config⟩ r))

include hruns

theorem enter_holds {budget : Option Nat} (hcuts : L.Cuts ∨ budget = none) (s : State)
    (node : String) {r : Option Value} (hr : resume = none → r = none) :
    L.Holds O (fun step => budget = none → step.budget = none)
      (g.enter runner? ⟨thread, g.config⟩ budget s node r) := by
  unfold enter
  cases hrunner : runner? node with
  | none => exact L.done id
  | some runner =>
    dsimp only
    split
    · exact L.done id
    · unfold carryOut
      refine L.bind (L.withinOption (hruns node runner hrunner _ _ hr) hcuts) ?_
      rintro (_ | ⟨r, left⟩) hleft
      · exact L.done fun _ => rfl
      · have hleft := (hleft _ rfl).2
        dsimp only
        split
        · exact L.done hleft
        · exact L.bind (settle_holds L hstore _ _ _) fun _ _ => L.done hleft

/-- Only the first node of a walk may be entered with a value. By induction on the number of
steps. -/
theorem walk_holds (hcuts : L.Cuts ∨ g.config.workflowTimeout = none) (s : State)
    (start : String) :
    L.Holds O (fun _ => True) (g.walk runner? s start thread resume) := by
  have hwalk (budget : Option Nat) (hbudget : L.Cuts ∨ budget = none) (s : State) (node : String)
      {r : Option Value} (hr : resume = none → r = none) (steps : Nat) : L.Holds O (fun _ => True)
        (g.walkFrom runner? ⟨thread, g.config⟩ budget s node r steps) := by
    induction steps generalizing budget s node r with
    | zero => exact L.done trivial
    | succ steps ih =>
      rw [walkFrom_succ]
      refine L.bind (enter_holds L hstore hruns hbudget s node hr) fun r hr => ?_
      unfold goOn
      split
      · exact L.done trivial
      · exact ih _ (hbudget.imp_right hr) _ _ fun _ => rfl
  rw [walk_eq]
  refine L.bind (hwalk _ (hcuts.imp_right fun hnone => ?_) _ _ id _) fun _ _ => L.done trivial
  rw [hnone]
  rfl

end Walk

variable (hruns : ∀ id runner, runner? id = some runner → ∀ s resume,
    L.Holds O (fun _ => True) (runner s ⟨thread, g.config⟩ resume))
  (hcuts : L.Cuts ∨ g.config.workflowTimeout = none)

include hruns hcuts

theorem runThread_holds (input : Fields) :
    L.Holds O (fun _ => True) (g.runThread runner? input thread) := by
  have hwalk (s : State) (start : String) (resume : Option Value) :
      L.Holds O (fun _ => True) (g.walk runner? s start thread resume) :=
    walk_holds L hstore (fun id runner h s r _ => hruns id runner h s r) hcuts s start
  unfold runThread
  refine L.bind (load_holds L hstore) ?_
  rintro (e | _ | c) _
  · exact L.done trivial
  · exact hwalk _ _ _
  · dsimp only
    split
    · split
      · exact L.done trivial
      · exact hwalk _ _ _
    · split
      · exact hwalk _ _ _
      · exact hwalk _ _ _

theorem resumeThread_holds (value : Value) :
    L.Holds O (fun _ => True) (g.resumeThread runner? thread value) := by
  unfold resumeThread
  refine L.bind (load_holds L hstore) ?_
  rintro (e | _ | c) _
  · exact L.done trivial
  · exact L.done trivial
  · dsimp only
    split
    · exact L.done trivial
    · exact walk_holds L hstore (fun id runner h s r _ => hruns id runner h s r) hcuts _ _

end GraphFrame

/-! ## Nodes -/

theorem MapNode.map_indexed {α β : Type _} (items : List α) (f : Nat × α → β) :
    (indexed items).map f = List.ofFn fun i : Fin items.length => f (i, items.get i) := by
  apply List.ext_getElem
  · simp [indexed]
  · intro i h h'
    simp [indexed]

/-- What a map hands on are the errors of its tasks. -/
theorem MapNode.join_errors (n : MapNode) (id : String) (runs : List NodeRun) :
    (n.join id runs).errors = runs.flatMap NodeRun.errors := by
  unfold join
  dsimp only
  split
  · rfl
  · rfl

namespace GraphNode

/-- Whether nothing that a node does is cut off after a span of time, as long as the graph that it
is executed for has no timeout for its nodes. -/
inductive Untimed : GraphNode → Prop where
  | leaf (frame : NodeFrame) (action : Action) (h : frame.policy.timeout = none) :
    Untimed (.leaf frame action)
  | map (frame : NodeFrame) (spec : MapSpec) {inner : GraphNode} (h : frame.policy.timeout = none)
    (hinner : Untimed inner) : Untimed (.map frame spec inner)
  | subgraph (frame : NodeFrame) (mappings : FieldMappings) {graph : GraphFrame}
    {nodes : List (String × GraphNode)} (h : frame.policy.timeout = none)
    (hnode : graph.config.nodeTimeout = none) (hrun : graph.config.workflowTimeout = none)
    (hinside : ∀ p ∈ nodes, Untimed p.2) : Untimed (.subgraph frame mappings graph nodes)

variable {E : ErrorRecord → Prop} (L : Discipline P fun r => ∀ e ∈ r.errors, E e)

theorem map_behaviour_holds (n : MapNode) (id : String) {inner : GraphNode}
    (hinner : ∀ s scope resume, (L.Cuts ∨ scope.config.nodeTimeout = none) →
      L.Holds (Thread.Inside scope.thread) (fun r => ∀ e ∈ r.errors, E e)
        (inner.runner s scope resume)) {v : Visit}
    (hscope : L.Cuts ∨ v.scope.config.nodeTimeout = none) :
    L.Holds (Thread.Inside v.scope.thread) (fun a => ∀ e ∈ a.errors, E e)
      (n.behaviour id inner.runner v) := by
  unfold MapNode.behaviour
  split
  · refine L.done ?_
    rintro e ⟨⟩
  · refine L.done ?_
    rintro e ⟨⟩
  · dsimp only
    rw [MapNode.map_indexed]
    refine L.bind (L.all _ (fun i => Thread.Inside (MapNode.taskScope id v.scope i).thread)
      ?_ ?_ ?_) ?_
    · exact fun i t ht => (Thread.inside_childThread v.scope _).trans ht
    · exact fun i j t hi hj => Fin.ext (Thread.eq_of_inside_tasks hi hj)
    · exact fun i => hinner _ _ _ hscope
    · intro runs hruns
      refine L.done fun e he => ?_
      rw [MapNode.join_errors] at he
      obtain ⟨r, hr, he⟩ := List.mem_flatMap.1 he
      exact hruns r hr e he

theorem subgraph_behaviour_holds (frame : NodeFrame) (mappings : FieldMappings)
    {graph : GraphFrame} {nodes : List (String × GraphNode)} (hgraph : StoredIn P graph nodes)
    (hnodes : ∀ p ∈ nodes, ∀ s resume thread,
      L.Holds (Thread.Inside thread) (fun r => ∀ e ∈ r.errors, E e)
        (p.2.runner s ⟨thread, graph.config⟩ resume))
    (hcuts : L.Cuts ∨ graph.config.workflowTimeout = none) (v : Visit) :
    L.Holds (Thread.Inside v.scope.thread) (fun a => ∀ e ∈ a.errors, E e)
      (mappings.behaviour frame.id graph (runnerIn? nodes) v) := by
  have hchild := Thread.inside_childThread v.scope frame.id
  have hruns : ∀ id runner, runnerIn? nodes id = some runner → ∀ s resume,
      L.Holds (Thread.Inside v.scope.thread) (fun _ => True)
        (runner s ⟨v.scope.childThread frame.id, graph.config⟩ resume) := by
    intro id runner hrunner t resume
    obtain ⟨node, hmem, rfl⟩ := exists_of_runnerIn? hrunner
    exact L.mono (hnodes _ hmem t resume _) (fun _ ht => hchild.trans ht) fun _ _ => trivial
  have hclean (r : RunResult) : ∀ e ∈ (Attempt.of (mappings.outcome frame.id graph.name r)).errors,
      E e := by
    rintro e ⟨⟩
  have hstore (store : Store) (hs : graph.store = some store) :
      P store ∧ Thread.Inside v.scope.thread (v.scope.childThread frame.id) :=
    ⟨hgraph store hs, hchild⟩
  unfold FieldMappings.behaviour
  dsimp only
  split
  · exact L.bind (GraphFrame.resumeThread_holds L.toJudgement hstore hruns hcuts _) fun r _ =>
      L.done (hclean r)
  · refine L.bind (GraphFrame.reset_holds L.toJudgement hstore) ?_
    rintro (e | _) _
    · refine L.done ?_
      rintro e ⟨⟩
    · exact L.bind (GraphFrame.runThread_holds L.toJudgement hstore hruns hcuts _) fun r _ =>
        L.done (hclean r)

/-- **Nodes keep to every discipline**, on the threads below that of their graph. What is to hold
of the errors that a node has gone on after is only that it holds of those that are recovered from.
By induction on the graphs inside the node. -/
theorem runner_holds (hE : ∀ node message step, E (.recovered node message step))
    {node : GraphNode} (h : node.EveryGraph (StoredIn P)) (hcuts : L.Cuts ∨ node.Untimed)
    (s : State) (scope : Scope) (resume : Option Value)
    (hscope : L.Cuts ∨ scope.config.nodeTimeout = none) :
    L.Holds (Thread.Inside scope.thread) (fun r => ∀ e ∈ r.errors, E e)
      (node.runner s scope resume) := by
  have hlimit {frame : NodeFrame} {scope : Scope} (hframe : L.Cuts ∨ frame.policy.timeout = none)
      (hscope : L.Cuts ∨ scope.config.nodeTimeout = none) : L.Cuts ∨ frame.limit? scope = none := by
    unfold NodeFrame.limit?
    rcases hframe with hcuts | hnone
    · exact .inl hcuts
    · rwa [hnone]
  induction h generalizing s scope resume with
  | leaf frame action =>
    have hframe : L.Cuts ∨ frame.policy.timeout = none := hcuts.imp_right fun | .leaf _ _ h => h
    unfold runner
    refine NodeFrame.execute_holds L.toJudgement hE (hlimit hframe hscope) ?_
    intro v _ _
    refine L.mono (action.behaviour_holds L.toJudgement frame.id v) (fun _ ht => ht)
      fun a ha e he => ?_
    rw [ha] at he
    cases he
  | map frame spec _ ih =>
    have hframe : L.Cuts ∨ frame.policy.timeout = none := hcuts.imp_right fun | .map _ _ h _ => h
    have hinner := hcuts.imp_right fun | .map _ _ _ hinner => hinner
    unfold runner
    refine NodeFrame.execute_holds L.toJudgement hE (hlimit hframe hscope) ?_
    rintro v rfl _
    exact map_behaviour_holds L _ frame.id (ih hinner) hscope
  | @subgraph frame mappings graph nodes here _ ih =>
    have hframe : L.Cuts ∨ frame.policy.timeout = none :=
      hcuts.imp_right fun | .subgraph _ _ h _ _ _ => h
    have hnode : L.Cuts ∨ graph.config.nodeTimeout = none :=
      hcuts.imp_right fun | .subgraph _ _ _ h _ _ => h
    have hrun : L.Cuts ∨ graph.config.workflowTimeout = none :=
      hcuts.imp_right fun | .subgraph _ _ _ _ h _ => h
    have hinside (p) (hp : p ∈ nodes) : L.Cuts ∨ p.2.Untimed :=
      hcuts.imp_right fun | .subgraph _ _ _ _ _ h => h p hp
    unfold runner
    refine NodeFrame.execute_holds L.toJudgement hE (hlimit hframe hscope) ?_
    rintro v rfl _
    exact subgraph_behaviour_holds L frame mappings here
      (fun p hp s resume thread => ih p hp (hinside p hp) s ⟨thread, graph.config⟩ resume hnode)
      hrun v

end GraphNode

end WorkflowGraph
