import WorkflowGraph.Proofs.Graph.Coherence

/-!
# Where the value of a caller goes

A thread that is resumed hands the value on to the graph that it waits for, and so does the thread
of that graph, until the value comes to an interrupt. On the way nothing is done but loading the
threads of the chain (`Activity.Opens`), and what is left of the run then is written down exactly
(`GraphNode.Resumed`): the interrupt has proceeded with the value, and the graphs around it wait for
what their subgraphs come to. The value misses the interrupt only where the chain is not coherent.
-/

set_option autoImplicit false

namespace WorkflowGraph

open Activity

/-! ## Activities that load a chain first -/

/-- Whether an activity loads threads on the chain of a thread, finds their latest checkpoints, and
then goes on as another activity. -/
inductive Activity.Opens (store : Store) (m : Latest) (root : String) {α : Type} :
    Activity α → Activity α → Prop where
  | here (p : Activity α) : Opens store m root p p
  | load {thread : String} {rest : Except StoreError (Option Checkpoint) → Activity α}
    {q : Activity α} (hthread : m.OnChain root thread)
    (h : Opens store m root (rest (.ok (m thread))) q) :
    Opens store m root (.ask (.load store thread) rest) q

namespace Activity.Opens

variable {α β : Type} {store : Store} {m : Latest} {root : String} {p q : Activity α}

theorem bind (h : p.Opens store m root q) (next : α → Activity β) :
    (p >>= next).Opens store m root (q >>= next) := by
  induction h with
  | here p => exact .here _
  | load hthread _ ih => exact .load hthread ih

theorem within (h : p.Opens store m root q) (budget : Nat) :
    (p.within budget).Opens store m root (q.within budget) := by
  induction h with
  | here p => exact .here _
  | load hthread _ ih => exact .load hthread ih

theorem withinOption (h : p.Opens store m root q) (budget : Option Nat) :
    (p.withinOption budget).Opens store m root (q.withinOption budget) := by
  cases budget with
  | none => exact h.bind _
  | some n => exact (h.within n).bind _

theorem further {thread : String} {pending : PendingInterrupt}
    (h : p.Opens store m (thread ++ "/" ++ pending.node) q)
    (hpending : m.pending? thread = some pending) (hnested : pending.nested = true) :
    p.Opens store m thread q := by
  induction h with
  | here p => exact .here p
  | load hthread _ ih => exact .load (.further hpending hnested hthread) ih

theorem run {σ : Type} {Sound : Storage → Prop} {watched : String → Prop} {k : Latest}
    (h : p.Opens store m root q) (hworks : store.Works Sound) (host : Host σ) {w : World σ}
    (hchain : ∀ u, m.OnChain root u → watched u) (hk : ∀ u, watched u → k u = m u)
    (hw : w.Shows (.keeping store watched) (store.Keeps Sound watched) k) :
    ∃ v : World σ, v.Shows (.keeping store watched) (store.Keeps Sound watched) k ∧
      p.run host w = q.run host v := by
  induction h generalizing w with
  | here p => exact ⟨w, hw, rfl⟩
  | @load thread rest q hthread _ ih =>
    have hbefore := hw.beforeAnswer host (Regime.seenThrough_keeping hworks) (.load store thread)
    obtain ⟨v, hv, hrun⟩ := ih hbefore
    refine ⟨v, hv, Eq.trans ?_ hrun⟩
    have hloaded := hworks.load _ thread hbefore.view.sound
    rw [hbefore.view.latest thread (hchain _ hthread), hk thread (hchain _ hthread)] at hloaded
    show (rest (store.load _ thread)).run host _ = _
    rw [hloaded]

end Activity.Opens

/-! ## What is left of a run -/

namespace GraphFrame

/-- What is left of a run when an activity carries out the node of its first step. -/
def takeOver (g : GraphFrame) (runner? : String → Option Runner) (thread : String) (s : State)
    (node : String) (p : Activity NodeRun) : Activity RunResult := do
  let budget := g.config.workflowTimeout.map Duration.wholeMillis
  let step ← g.carryOut thread budget s node p
  let ending ← g.goOn runner? ⟨thread, g.config⟩ (g.config.maxSteps - 1) step
  pure (g.conclude ending)

/-- What is left of a run when the node of its first step has proceeded with an update: it is
merged, and the walk goes on as the transition of the node says. -/
def proceed (g : GraphFrame) (runner? : String → Option Runner) (thread : String) (s : State)
    (node : String) (update : Update) : Activity RunResult := do
  let budget := g.config.workflowTimeout.map Duration.wholeMillis
  let (onward, s) ← g.settle thread node { s with step := s.step + 1 } (.proceed update)
  let ending ← g.goOn runner? ⟨thread, g.config⟩ (g.config.maxSteps - 1) ⟨true, onward, s, budget⟩
  pure (g.conclude ending)

variable {g : GraphFrame} {runner? : String → Option Runner} {thread : String}

/-- A run that is resumed at a node executes this node first, and counts no visit of it. -/
theorem walk_some {node : String} {runner : Runner} (hsteps : 0 < g.config.maxSteps)
    (hrunner : runner? node = some runner) (s : State) (value : Value) :
    g.walk runner? s node thread (some value) =
      g.takeOver runner? thread s node (runner s ⟨thread, g.config⟩ (some value)) := by
  obtain ⟨steps, hmax⟩ := Nat.exists_eq_succ_of_ne_zero (Nat.ne_of_gt hsteps)
  have henter (budget : Option Nat) :
      g.enter runner? ⟨thread, g.config⟩ budget s node (some value) =
        g.carryOut thread budget s node (runner s ⟨thread, g.config⟩ (some value)) := by
    unfold enter
    rw [hrunner, visit_some]
  unfold takeOver
  rw [walk_eq, hmax, Nat.succ_eq_add_one, walkFrom_succ, henter, Activity.bind_bind,
    Nat.add_sub_cancel]

theorem takeOver_pure (s : State) (node : String) (update : Update) :
    g.takeOver runner? thread s node (pure ⟨.ok (.proceed update), [], 1, false⟩) =
      g.proceed runner? thread s node update := by
  have hafter : afterRun s ⟨.ok (.proceed update), [], 1, false⟩ =
      { s with step := s.step + 1 } := by
    unfold afterRun
    simp
  unfold takeOver proceed carryOut
  cases g.config.workflowTimeout with
  | none =>
    show (g.settle thread node (afterRun s _) _ >>= _) >>= _ = _
    rw [hafter, Activity.bind_bind]
    rfl
  | some limit =>
    show (g.settle thread node (afterRun s _) _ >>= _) >>= _ = _
    rw [hafter, Activity.bind_bind]
    rfl

end GraphFrame

theorem Activity.Opens.reexecute {store : Store} {m : Latest} {root : String}
    {p q : Activity Attempt} (h : p.Opens store m root q) (f : NodeFrame) (b : Behaviour)
    (s : State) (scope : Scope) (value : Value) :
    (f.reexecute b s scope value p).Opens store m root (f.reexecute b s scope value q) := by
  unfold NodeFrame.reexecute NodeFrame.limited
  cases f.limit? scope with
  | none => exact h.bind _
  | some limit => exact ((h.within _).bind _).bind _

theorem Activity.Opens.takeOver {store : Store} {m : Latest} {root : String}
    {p q : Activity NodeRun} (h : p.Opens store m root q) {g : GraphFrame}
    {runner? : String → Option Runner} {thread : String} (s : State) (node : String) :
    (g.takeOver runner? thread s node p).Opens store m root
      (g.takeOver runner? thread s node q) := by
  unfold GraphFrame.takeOver GraphFrame.carryOut
  exact ((h.withinOption _).bind _).bind _

/-! ## Where a value comes to -/

/-- Whether a write takes a field of a state inside a subgraph back to the state around, as the
mappings of the subgraph say. -/
def FieldMappings.TakesBack (mappings : FieldMappings) (inner : State) (w : String × Value) :
    Prop :=
  ∃ field, ((field, w.1) ∈ mappings.output ∨ (field, w.1) ∈ mappings.interrupt) ∧
    inner.at? field = some w.2

namespace GraphNode

/-- What is left of a run that has been resumed with a value, once the value has come to the end of
the chain. It has arrived where this is an interrupt, which then has proceeded with it; it is
refused where the last thread waits for nothing. On the threads around nothing has changed yet,
and later they see of the graph inside only what its mappings take back. -/
inductive Resumed (m : Latest) (value : Value) : Bool → GraphFrame →
    List (String × GraphNode) → String → Activity RunResult → Prop where
  | takenUp {g : GraphFrame} {nodes : List (String × GraphNode)} {thread id : String}
    {c : Checkpoint} {payload : Value} {frame : NodeFrame} {n : InterruptNode}
    (hlatest : m thread = some c)
    (hwaits : c.state.interrupt = some ⟨id, n.resumeKey, payload, false⟩)
    (hnode : lookup? nodes id = some (.leaf frame (.interrupt n)))
    (hwritten : Dict.get? (c.state.apply g.shape (.single n.resumeKey value)).values n.resumeKey =
      some value) :
    Resumed m value true g nodes thread
      (g.proceed (runnerIn? nodes) thread { c.state with interrupt := none } id
        (.single n.resumeKey value))
  | refused {g : GraphFrame} {nodes : List (String × GraphNode)} {thread : String}
    (hnone : m.pending? thread = none) :
    Resumed m value false g nodes thread
      (pure (.failed (.noPendingInterrupt thread) (((m thread).map Checkpoint.state).getD .blank)))
  | handedOn {arrives : Bool} {g : GraphFrame} {nodes : List (String × GraphNode)}
    {thread id key : String} {c : Checkpoint} {payload : Value} {frame : NodeFrame}
    {mappings : FieldMappings} {graph : GraphFrame} {inside : List (String × GraphNode)}
    {q : Activity RunResult}
    (hlatest : m thread = some c)
    (hwaits : c.state.interrupt = some ⟨id, key, payload, true⟩)
    (hnode : lookup? nodes id = some (.subgraph frame mappings graph inside))
    (hback : ∀ r outcome, mappings.outcome frame.id graph.name r = .ok outcome →
      ∀ w ∈ outcome.update.writes, mappings.TakesBack r.state w)
    (hinner : Resumed m value arrives graph inside (thread ++ "/" ++ id) q) :
    Resumed m value arrives g nodes thread
      (g.takeOver (runnerIn? nodes) thread { c.state with interrupt := none } id
        (frame.reexecute (mappings.behaviour frame.id graph (runnerIn? inside))
          { c.state with interrupt := none } ⟨thread, g.config⟩ value
          (q >>= fun r => pure (.of (mappings.outcome frame.id graph.name r)))))

end GraphNode

/-- Whether the node that a thread of a graph has suspended at, where it has, misses no field that
it requires. -/
def Graph.Ready (m : Latest) (g : Graph) (thread : String) : Prop :=
  ∀ c pending node, m thread = some c → c.state.interrupt = some pending →
    GraphNode.lookup? g.nodes pending.node = some node → node.frame.missing? c.state = none

/-- Whether this holds of all threads on the way of a value. -/
structure Graph.ReadyThroughout (m : Latest) (g : Graph) (thread : String) : Prop where
  here : g.Ready m thread
  below : ∀ inner below, Graph.HandsOn m g thread inner below → inner.Ready m below

namespace GraphNode

variable {m : Latest} {g : GraphFrame} {nodes : List (String × GraphNode)} {thread : String}
  {value : Value}

theorem get?_apply_single {shape : StateShape} {key : String}
    (hmerge : shape.merge key = .overwrite) (s : State) (value : Value) :
    Dict.get? (s.apply shape (.single key value)).values key = some value := by
  show Dict.get? (Dict.put s.values key _) key = some value
  rw [Dict.get?_put_self, hmerge]
  rfl

theorem takesBack_of_outcome {mappings : FieldMappings} {id name : String} {r : RunResult}
    {outcome : NodeOutcome} (h : mappings.outcome id name r = .ok outcome) :
    ∀ w ∈ outcome.update.writes, mappings.TakesBack r.state w := by
  intro w hw
  have hback (mapping : Dict String) (s : State)
      (hw : w ∈ (FieldMappings.back mapping s).writes) :
      ∃ field, (field, w.1) ∈ mapping ∧ s.at? field = some w.2 := by
    obtain ⟨p, hp, hmapped⟩ := List.mem_filterMap.1 hw
    obtain ⟨v, hv, rfl⟩ := Option.map_eq_some_iff.1 hmapped
    exact ⟨p.1, hp, hv⟩
  cases r with
  | complete s =>
    cases h
    obtain ⟨field, hfield, hv⟩ := hback _ _ hw
    exact ⟨field, .inl hfield, hv⟩
  | suspended pending s =>
    cases h
    obtain ⟨field, hfield, hv⟩ := hback _ _ hw
    exact ⟨field, .inr hfield, hv⟩
  | failed e s => cases h

theorem resumeThread_opens {store : Store} {runner? : String → Option Runner} {c : Checkpoint}
    {pending : PendingInterrupt} {q : Activity RunResult} (hstore : g.store = some store)
    (hlatest : m thread = some c) (hwaits : c.state.interrupt = some pending)
    (h : (g.walk runner? { c.state with interrupt := none } pending.node thread (some value)).Opens
      store m thread q) :
    (g.resumeThread runner? thread value).Opens store m thread q := by
  unfold GraphFrame.resumeThread GraphFrame.load
  rw [hstore]
  refine .load (.here thread) ?_
  simp only [pure, Activity.bind, Except.mapError, hlatest, hwaits]
  exact h

/-- **A value that a thread is resumed with goes down its chain**, and nothing is done on the way
but loading the threads of the chain. By induction on the chain. -/
theorem Rooted.resumed {store : Store} (h : Rooted m g nodes thread)
    (hg : Graph.Everywhere (Wired (some store)) ⟨g, nodes⟩)
    (hready : Graph.ReadyThroughout m ⟨g, nodes⟩ thread) (value : Value) :
    ∃ arrives p, Resumed m value arrives g nodes thread p ∧
      (g.resumeThread (runnerIn? nodes) thread value).Opens store m thread p := by
  induction h with
  | @idle g nodes thread hnone =>
    -- The thread waits for nothing, so that the run ends right after loading.
    refine ⟨false, _, .refused hnone, ?_⟩
    unfold GraphFrame.resumeThread GraphFrame.load
    rw [hg.here.store]
    refine .load (.here thread) ?_
    cases hlatest : m thread with
    | none => exact .here _
    | some c =>
      have hwaits : c.state.interrupt = none := by
        unfold Latest.pending? at hnone
        rw [hlatest] at hnone
        exact hnone
      simp only [pure, Activity.bind, Except.mapError, hwaits]
      exact .here _
  | @interrupt g nodes thread id payload frame n hpending hsteps hnode =>
    obtain ⟨c, hlatest, hwaits⟩ := Latest.pending?_eq_some_iff.1 hpending
    have hmem := mem_of_lookup? hnode
    have hwritten := get?_apply_single (hg.here.overwrites _ _ _ hmem) c.state value
    refine ⟨true, _, .takenUp hlatest hwaits hnode hwritten, ?_⟩
    apply resumeThread_opens hg.here.store hlatest hwaits
    have hmissing := hready.here c _ _ hlatest hwaits hnode
    rw [GraphFrame.walk_some hsteps (runnerIn?_of_lookup? hnode)]
    unfold runner
    rw [NodeFrame.execute_some (by exact hmissing), ← GraphFrame.takeOver_pure]
    -- An interrupt that is given a value proceeds at once, without asking for its message.
    show (g.takeOver _ _ _ _ (frame.reexecute _ _ _ _ (pure (.of (.ok _))))).Opens _ _ _ _
    rw [NodeFrame.reexecute_pure]
    exact .here _
  | @subgraph g nodes thread id key payload frame mappings graph inside hpending hsteps hnode _ _
      ih =>
    obtain ⟨c, hlatest, hwaits⟩ := Latest.pending?_eq_some_iff.1 hpending
    have hid : frame.id = id := hg.here.ids _ _ (mem_of_lookup? hnode)
    have hfirst : Graph.HandsOn m ⟨g, nodes⟩ thread ⟨graph, inside⟩ (thread ++ "/" ++ id) :=
      @Graph.HandsOn.first m ⟨g, nodes⟩ thread ⟨id, key, payload, true⟩ _ _ _ _ hpending rfl hnode
    have hbelow : Graph.ReadyThroughout m ⟨graph, inside⟩ (thread ++ "/" ++ id) :=
      ⟨hready.below _ _ hfirst, fun inner below hon => hready.below _ _ (.further hfirst hon)⟩
    obtain ⟨arrives, q, hresumed, hopens⟩ := ih (everywhere_of_lookup? hg hnode) hbelow
    -- The first attempt of the node resumes the thread below, which opens as it does by itself.
    refine ⟨arrives, _, .handedOn hlatest hwaits hnode ?_ hresumed, ?_⟩
    · exact fun _ _ houtcome => takesBack_of_outcome houtcome
    apply resumeThread_opens hg.here.store hlatest hwaits
    have hmissing := hready.here c _ _ hlatest hwaits hnode
    rw [GraphFrame.walk_some hsteps (runnerIn?_of_lookup? hnode)]
    unfold runner
    rw [NodeFrame.execute_some (by exact hmissing)]
    subst hid
    have hchild : (graph.resumeThread (runnerIn? inside) (thread ++ "/" ++ frame.id) value).Opens
        store m thread q :=
      @Opens.further _ _ _ _ _ thread ⟨frame.id, key, payload, true⟩ hopens hpending rfl
    exact ((hchild.bind _).reexecute frame _ _ _ _).takeOver _ _

theorem Resumed.exists_pending? {p : Activity RunResult}
    (h : Resumed m value true g nodes thread p) : ∃ pending, m.pending? thread = some pending := by
  cases h with
  | takenUp hlatest hwaits => exact ⟨_, Latest.pending?_eq_some_iff.2 ⟨_, hlatest, hwaits⟩⟩
  | handedOn hlatest hwaits => exact ⟨_, Latest.pending?_eq_some_iff.2 ⟨_, hlatest, hwaits⟩⟩

/-- Along a rooted chain, a value arrives at an interrupt if and only if the thread is suspended and
its chain is coherent. By induction on the way of the value. -/
theorem Resumed.arrives_iff {arrives : Bool} {p : Activity RunResult}
    (h : Resumed m value arrives g nodes thread p) (hrooted : Rooted m g nodes thread) :
    arrives = true ↔ (∃ pending, m.pending? thread = some pending) ∧ m.Coherent thread := by
  induction h with
  | takenUp hlatest hwaits =>
    have hwaiting := Latest.pending?_eq_some_iff.2 ⟨_, hlatest, hwaits⟩
    exact iff_of_true rfl ⟨⟨_, hwaiting⟩, Latest.coherent_of_not_nested hwaiting rfl⟩
  | refused hnone =>
    refine iff_of_false Bool.false_ne_true ?_
    rintro ⟨⟨pending, hsome⟩, _⟩
    rw [hnone] at hsome
    cases hsome
  | handedOn hlatest hwaits hnode _ _ ih =>
    have hwaiting := Latest.pending?_eq_some_iff.2 ⟨_, hlatest, hwaits⟩
    cases hrooted with
    | idle _ _ hnone =>
      rw [hnone] at hwaiting
      cases hwaiting
    | interrupt hother =>
      rw [hother] at hwaiting
      cases hwaiting
    | subgraph hother _ hlookup hsame hinner =>
      rw [hother] at hwaiting
      cases hwaiting
      rw [hnode] at hlookup
      cases hlookup
      refine (ih hinner).trans ⟨?_, ?_⟩
      · rintro ⟨⟨inner, hbelow⟩, hcoherent⟩
        obtain ⟨hkey, hpayload⟩ := hsame inner hbelow
        exact ⟨⟨_, hother⟩, hcoherent.above hother hbelow hkey hpayload⟩
      · rintro ⟨_, hcoherent⟩
        obtain ⟨inner, hbelow, _, _⟩ := hcoherent _ (.here _) _ hother rfl
        exact ⟨⟨inner, hbelow⟩, hcoherent.below hother rfl⟩

end GraphNode

namespace Graph

theorem readyThroughout_of_requires_eq_nil {g : Graph}
    (h : g.Everywhere fun _ nodes => ∀ p ∈ nodes, p.2.frame.policy.requires = []) (m : Latest)
    (thread : String) : g.ReadyThroughout m thread := by
  have hready {inner : Graph} (below : String)
      (hinner : inner.Everywhere fun _ nodes => ∀ p ∈ nodes, p.2.frame.policy.requires = []) :
      inner.Ready m below := by
    intro c pending node _ _ hnode
    have hrequires := hinner.here _ (GraphNode.mem_of_lookup? hnode)
    unfold NodeFrame.missing?
    rw [hrequires]
    rfl
  refine ⟨hready thread h, fun inner below hon => hready below ?_⟩
  induction hon with
  | first _ _ hnode => exact GraphNode.everywhere_of_lookup? h hnode
  | further _ _ ih ih' => exact ih' (ih h)

variable {σ : Type} {store : Store} {SoundStorage : Storage → Prop} {g : Graph} {thread : String}
  {w : World σ} {host : Host σ}

/-- Whether the value that a thread is resumed with arrives at an interrupt, or is refused instead:
the threads of the chain are loaded, and what is left of the run is carried out while all
threads are as they were. -/
def Delivers (g : Graph) (store : Store) (thread : String) (value : Value) (host : Host σ)
    (w : World σ) (arrives : Bool) : Prop :=
  ∃ p, GraphNode.Resumed (store.latest? w.storage) value arrives g.frame g.nodes thread p ∧
    (g.resume thread value).Opens store (store.latest? w.storage) thread p ∧
    ∃ v : World σ,
      (∀ u, GraphNode.Threads g.nodes thread u →
        store.latest? v.storage u = store.latest? w.storage u) ∧
      (g.resume thread value).run host w = p.run host v

/-- A value that a suspended thread is resumed with arrives where the chain is coherent, and is
refused where it is not. -/
theorem Seen.delivers (h : g.Seen store SoundStorage (GraphNode.Threads g.nodes thread) thread w)
    (hg : g.Placed store (GraphNode.Threads g.nodes thread) thread)
    (hworks : store.Works SoundStorage)
    (hready : g.ReadyThroughout (store.latest? w.storage) thread) {pending : PendingInterrupt}
    (hpending : Latest.pending? (store.latest? w.storage) thread = some pending) (host : Host σ)
    (value : Value) :
    ∃ arrives, (arrives = true ↔ Latest.Coherent (store.latest? w.storage) thread) ∧
      g.Delivers store thread value host w arrives := by
  obtain ⟨arrives, p, hresumed, hopens⟩ := h.rooted.resumed hg.wired hready value
  obtain ⟨m, hm, hshows⟩ := h.shows
  have hsame (u : String) (hu : GraphNode.Threads g.nodes thread u) :
      m u = store.latest? w.storage u :=
    (hshows.view.latest u hu).symm
  have hchain := h.rooted.watched hg
  obtain ⟨v, hv, hrun⟩ := hopens.run hworks host hchain hsame hshows
  refine ⟨arrives, ?_, p, hresumed, hopens, v, ?_, hrun⟩
  · rw [hresumed.arrives_iff h.rooted]
    exact and_iff_right ⟨pending, hpending⟩
  · intro u hu
    rw [hv.view.latest u hu, hsame u hu]

theorem Seen.awaits_of_resume {watched : String → Prop}
    (h : g.Seen store SoundStorage watched thread w) (hg : g.Placed store watched thread)
    (hworks : store.Works SoundStorage) {value : Value} {pending : PendingInterrupt} {s : State}
    (hsuspended : ((g.resume thread value).run host w).1 = .suspended pending s) :
    GraphNode.Awaits (store.latest? ((g.resume thread value).run host w).2.storage) g.frame g.nodes
      thread pending := by
  obtain ⟨m, hm, hshows⟩ := h.shows
  have hresume := resume_keeping hg hm value
  obtain ⟨k, hafter, hleaves⟩ := hresume.run host (Regime.seenThrough_keeping hworks) hshows
  rw [hsuspended] at hleaves
  refine hleaves.2.congr fun u hu => ?_
  exact hafter.view.latest u (hleaves.2.rooted.watched hg u hu)

end Graph

/-! ## The main result -/

open WorkflowGraph.Graph in
/-- **A resume value reaches the pending interrupt if and only if the chain is coherent.** Take a
graph that has been assembled on a working store, and a thread on which it is run and resumed from
the beginning, whatever executors and tools answer; no thread of its subgraphs may be one of a task
of a map at the same time. When a call has just returned a suspension, this is what the thread waits
for. The value that it is resumed with then is handed down the chain to the interrupt at its end,
which takes it up, if and only if the chain is coherent; otherwise a thread on the chain refuses it.
A chain is incoherent only after a run that has said again what was pending on an incoherent chain
before, and never as long as no call has been lost. -/
theorem resumed_value_arrives_iff_coherent {c : Compiler} {store : Store} {depth : Nat}
    {stack : SourceStack} {d : Definition} {g : Graph}
    (hg : c.assemble (some store) depth stack d = .ok g) (config : RunConfig) (thread : String)
    (hapart : g.Apart thread) {SoundStorage : Storage → Prop} (hworks : store.Works SoundStorage)
    {σ : Type} (host : Host σ) {start w : World σ}
    (hstart : Begins store SoundStorage thread start)
    (hw : (g.withConfig config).Visits thread host start w) {call : Activity RunResult}
    (hcall : (g.withConfig config).Serves thread call) {pending : PendingInterrupt} {s : State}
    (hsuspended : (call.run host w).1 = .suspended pending s)
    (hready : (g.withConfig config).ReadyThroughout
      (store.latest? (call.run host w).2.storage) thread) (value : Value) :
    Latest.pending? (store.latest? (call.run host w).2.storage) thread = some pending ∧
    (Latest.Coherent (store.latest? (call.run host w).2.storage) thread ↔
      (g.withConfig config).Delivers store thread value host (call.run host w).2 true) ∧
    (¬ Latest.Coherent (store.latest? (call.run host w).2.storage) thread →
      (g.withConfig config).Delivers store thread value host (call.run host w).2 false ∧
      (∃ input, call = (g.withConfig config).run input thread) ∧
      Latest.pending? (store.latest? w.storage) thread = some pending ∧
      ¬ Latest.Coherent (store.latest? w.storage) thread) ∧
    ((g.withConfig config).Reaches store thread host start w →
      Latest.Coherent (store.latest? (call.run host w).2.storage) thread) := by
  have hplaced := placed_of_assemble hg hapart config
  have hbefore := hw.seen hplaced hworks hstart
  have hafter := hbefore.next hplaced hworks host hcall
  have hshown := (hbefore.shown hplaced hworks host hcall).2
  rw [hsuspended] at hshown
  have hpending : Latest.pending? (store.latest? (call.run host w).2.storage) thread =
      some pending := by
    rcases hshown with hawaits | ⟨hpending, hsame⟩
    · exact hawaits.pending?
    · exact (Latest.pending?_congr (hsame thread (.here thread))).trans hpending
  obtain ⟨arrives, harrives, hdelivers⟩ :=
    hafter.delivers hplaced hworks hready hpending host value
  refine ⟨hpending, ⟨?_, ?_⟩, ?_, ?_⟩
  · intro hcoherent
    rw [harrives.2 hcoherent] at hdelivers
    exact hdelivers
  · rintro ⟨p, hresumed, _⟩
    exact ((hresumed.arrives_iff hafter.rooted).1 rfl).2
  · intro hincoherent
    have hrefused : arrives = false := by
      rw [← Bool.not_eq_true, harrives]
      exact hincoherent
    rw [hrefused] at hdelivers
    rcases hshown with hawaits | ⟨hwaited, hsame⟩
    · exact absurd hawaits.coherent hincoherent
    · refine ⟨hdelivers, ?_, hwaited, fun hcoherent => hincoherent (hcoherent.of_same hsame)⟩
      rcases hcall with ⟨input, rfl⟩ | ⟨other, rfl⟩
      · exact ⟨input, rfl⟩
      · have hawaits := hbefore.awaits_of_resume hplaced hworks hsuspended
        exact absurd hawaits.coherent hincoherent
  · intro hreaches
    have hcoherent := hreaches.coherent hplaced hworks hstart
    rw [hbefore.coherent_iff hplaced hworks host hcoherent hcall, hsuspended]
    rintro ⟨⟨_, _, hfailed⟩, _, _⟩
    cases hfailed

theorem askGraph_requires_eq_nil :
    askGraph.Everywhere fun _ nodes => ∀ p ∈ nodes, p.2.frame.policy.requires = [] := by
  apply askGraph_everywhere
  · intro p hp
    obtain rfl := List.mem_singleton.1 hp
    rfl
  · intro p hp
    simp only [askChildNodes, List.mem_cons, List.not_mem_nil, or_false] at hp
    rcases hp with rfl | rfl
    · rfl
    · rfl

/-- The answer to the graph that has asked arrives at the interrupt inside. -/
theorem askedWorld_delivers :
    oneExecutor.assemble (some .memory) 2 .empty askParent = .ok askGraph ∧
    (∃ s, ((askGraph.run .null "t").run downHost (.initial () .empty)).1 =
      .suspended ⟨"sub", "user_input", .text "Name?", true⟩ s) ∧
    askGraph.Delivers .memory "t" (.text "Ada") downHost askedWorld true := by
  have hg : oneExecutor.assemble (some .memory) 2 .empty askParent = .ok askGraph := by
    with_unfolding_all rfl
  have hsuspended : ∃ s, ((askGraph.run .null "t").run downHost (.initial () .empty)).1 =
      .suspended ⟨"sub", "user_input", .text "Name?", true⟩ s := ⟨_, by with_unfolding_all rfl⟩
  refine ⟨hg, hsuspended, ?_⟩
  obtain ⟨s, hs⟩ := hsuspended
  obtain ⟨_, harrives, _, hcoheres⟩ := resumed_value_arrives_iff_coherent hg .standard "t"
    (Graph.apart_of_unbracketed askGraph_unbracketed "t") Store.memory_works downHost
    (begins_empty "t") .start (.inl ⟨.null, rfl⟩) hs
    (Graph.readyThroughout_of_requires_eq_nil askGraph_requires_eq_nil _ _) (.text "Ada")
  exact harrives.1 (hcoheres .start)

/-- A run after the lost call says again that the thread is suspended, but the value that it is
resumed with then does not arrive, and the call fails for want of a pending interrupt. -/
theorem lostWorld_delivers_nothing :
    oneExecutor.assemble (some .memory) 2 .empty askParent = .ok askGraph ∧
    (∃ s, ((askGraph.run .null "t").run downHost lostWorld).1 =
      .suspended ⟨"sub", "user_input", .text "Name?", true⟩ s) ∧
    ¬ askGraph.Delivers .memory "t" (.text "Ada") downHost
      ((askGraph.run .null "t").run downHost lostWorld).2 true ∧
    ∃ s, ((askGraph.resume "t" (.text "Ada")).run downHost
        ((askGraph.run .null "t").run downHost lostWorld).2).1 =
      .failed (.nodeExecution "sub" 1 (.failed "sub" ("subgraph " ++ ticked "child" ++
        " failed: " ++ (RunError.noPendingInterrupt "t/sub").message))) s := by
  have hwaits : Latest.pending? (Store.memory.latest?
      ((askGraph.run .null "t").run downHost lostWorld).2.storage) "t" =
      some ⟨"sub", "user_input", .text "Name?", true⟩ := by
    with_unfolding_all rfl
  have hbelow : Latest.pending? (Store.memory.latest?
      ((askGraph.run .null "t").run downHost lostWorld).2.storage) "t/sub" = none := by
    with_unfolding_all rfl
  refine ⟨by with_unfolding_all rfl, ⟨_, by with_unfolding_all rfl⟩, ?_,
    ⟨_, by with_unfolding_all rfl⟩⟩
  rintro ⟨p, hresumed, _⟩
  obtain ⟨c, hlatest, hinterrupt⟩ := Latest.pending?_eq_some_iff.1 hwaits
  cases hresumed with
  | takenUp hlatest' hwaits' =>
    rw [hlatest] at hlatest'
    cases hlatest'
    rw [hinterrupt] at hwaits'
    simp at hwaits'
  | handedOn hlatest' hwaits' _ _ hinner =>
    rw [hlatest] at hlatest'
    cases hlatest'
    rw [hinterrupt] at hwaits'
    cases hwaits'
    obtain ⟨inner, hinner⟩ := hinner.exists_pending?
    rw [show ("t" ++ "/" ++ "sub" : String) = "t/sub" from rfl, hbelow] at hinner
    cases hinner

end WorkflowGraph
