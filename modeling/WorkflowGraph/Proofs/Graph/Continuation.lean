import WorkflowGraph.Proofs.Activity.Rest
import WorkflowGraph.Proofs.Graph.Coherence

/-!
# Runs that are cut off and continued

A run that may take only so many steps fails when they are used up, and what it has saved last is
where the next run of the thread goes on. When every step is saved, the saved state and the node
that comes next are all that a walk needs, so that runs which are cut off and continued come to
what a single one comes to, and leave the same world (`continued_runs_end_as_one`).

The number of steps of the graph is of no matter to its nodes (`GraphNode.runner_allowing`), so
that a step is the same in both (`GraphFrame.enter_allowing`). After every step that goes on the
thread has what is needed to go on (`GraphFrame.Saved`), and the rest is an induction on the steps
of the longer run.
-/

set_option autoImplicit false

namespace WorkflowGraph

open Activity

/-! ## Nodes do not care for the steps of their graph -/

/-- A scope whose graph may take another number of steps. -/
def Scope.allowing (scope : Scope) (steps : Nat) : Scope :=
  { scope with config := { scope.config with maxSteps := steps } }

/-- Whether a node is executed in the same way whatever number of steps its graph may take. -/
def Runner.IgnoresSteps (runner : Runner) : Prop :=
  ∀ s scope resume steps, runner s (scope.allowing steps) resume = runner s scope resume

namespace NodeFrame

variable {f : NodeFrame} {b : Behaviour}

/-- By induction on the number of further attempts. -/
theorem attempts_allowing
    (hb : ∀ v steps, b { v with scope := v.scope.allowing steps } = b v) (s : State)
    (scope : Scope) (resume : Option Value) (steps number : Nat) (errors : List ErrorRecord)
    (further : Nat) :
    f.attempts b s (scope.allowing steps) resume number errors further =
      f.attempts b s scope resume number errors further := by
  have hattempt (number : Nat) : f.limited (scope.allowing steps)
      (b (attempts.visit f s (scope.allowing steps) resume number)) =
      f.limited scope (b (attempts.visit f s scope resume number)) :=
    congrArg (f.limited scope) (hb (attempts.visit f s scope resume number) steps)
  induction further generalizing number errors with
  | zero =>
    rw [attempts_eq, attempts_eq, hattempt]
    congr 1
    funext a
    unfold afterAttempt
    cases a.result <;> rfl
  | succ further ih =>
    rw [attempts_eq, attempts_eq, hattempt]
    congr 1
    funext a
    unfold afterAttempt
    cases a.result with
    | ok outcome => rfl
    | error e =>
      dsimp only
      rw [ih]
      rfl

theorem execute_ignoresSteps
    (hb : ∀ v steps, b { v with scope := v.scope.allowing steps } = b v) :
    Runner.IgnoresSteps (f.execute b) := by
  intro s scope resume steps
  unfold execute
  split
  · rfl
  · split
    · rfl
    · exact attempts_allowing hb s scope resume steps 1 [] _

end NodeFrame

/-- By induction on the turns of the conversation. -/
theorem AgentNode.converse_scope (n : AgentNode) (id : String) (v : Visit) (scope : Scope)
    (history : List Message) (values : Fields) (t : Transcript) (turns : Nat) :
    n.converse id { v with scope } history values t turns =
      n.converse id v history values t turns := by
  induction turns generalizing t with
  | zero => rfl
  | succ turns ih =>
    unfold converse
    simp only [ih]
    rfl

/-- What an action does does not depend on the run that it belongs to. -/
theorem Action.behaviour_scope (action : Action) (id : String) (v : Visit) (scope : Scope) :
    action.behaviour id { v with scope } = action.behaviour id v := by
  cases action with
  | transform | router | interrupt | passthrough => rfl
  | agent n =>
    unfold behaviour AgentNode.behaviour
    simp only [AgentNode.converse_scope]
    rfl

/-- By induction on the nodes inside maps. -/
theorem GraphNode.runner_allowing : (node : GraphNode) → Runner.IgnoresSteps node.runner
  | .leaf _ action => by
    unfold runner
    exact NodeFrame.execute_ignoresSteps fun v _ => action.behaviour_scope _ v _
  | .map frame spec inner => by
    unfold runner
    apply NodeFrame.execute_ignoresSteps
    intro v steps
    have htask (t : State) (index : Nat) :
        inner.runner t (MapNode.taskScope frame.id (v.scope.allowing steps) index) none =
          inner.runner t (MapNode.taskScope frame.id v.scope index) none :=
      inner.runner_allowing t (MapNode.taskScope frame.id v.scope index) none steps
    unfold MapNode.behaviour
    simp only [htask]
    rfl
  | .subgraph _ _ _ _ => by
    unfold runner
    exact NodeFrame.execute_ignoresSteps fun _ _ => rfl

/-! ## Worlds in which a thread is left alone -/

/-- Whether the checkpoint of a thread stands at the step of its state. -/
def Latest.Stamped (thread : String) (m : Latest) : Prop :=
  ∀ c, m thread = some c → c.step = c.state.step

theorem Latest.stamped_update {thread : String} {m : Latest} {g : GraphFrame} {s : State}
    {next : Option String} :
    Latest.Stamped thread (Function.update m thread (some (g.checkpoint thread s next))) := by
  intro c hc
  rw [Function.update_self] at hc
  cases hc
  rfl

/-- Whether the storage of a world is sound, the checkpoint of a thread stands at the step of its
state, and no task under way has anything to do with the thread. -/
structure World.Undisturbed {σ : Type} (store : Store) (Sound : Storage → Prop) (thread : String)
    (w : World σ) : Prop where
  storage : Sound w.storage
  stamped : Latest.Stamped thread (store.latest? w.storage)
  crew : ∀ t ∈ Crew.trees w.crew.strands,
    t.2.Obeys (Call.Elsewhere store (thread = ·)) fun _ => True

namespace World.Undisturbed

variable {σ : Type} {store : Store} {Sound : Storage → Prop} {thread : String} {w : World σ}

theorem shows (h : w.Undisturbed store Sound thread) :
    w.Shows (.keeping store (thread = ·)) (store.Keeps Sound (thread = ·))
      (store.latest? w.storage) :=
  ⟨⟨h.storage, fun _ _ => rfl⟩, h.crew⟩

theorem of_shows {m : Latest}
    (h : w.Shows (.keeping store (thread = ·)) (store.Keeps Sound (thread = ·)) m)
    (hm : m.Stamped thread) : w.Undisturbed store Sound thread := by
  refine ⟨h.view.sound, fun c hc => ?_, h.crew⟩
  rw [h.view.latest thread rfl] at hc
  exact hm c hc

/-- A thread that begins is undisturbed. -/
theorem of_begins (h : Graph.Begins store Sound thread w) : w.Undisturbed store Sound thread := by
  refine ⟨h.storage, fun c hc => h.sound thread c hc, ?_⟩
  rw [h.idle]
  simp [Crew.trees]

/-- What an activity meets that leaves the checkpoint of the thread at the step of its state. -/
theorem run {α : Type} {p : Activity α} {post : α → Latest → Prop}
    (h : w.Undisturbed store Sound thread) (hworks : store.Works Sound) (host : Host σ)
    (hp : p.Meets (.keeping store (thread = ·)) (Latest.Stamped thread)
      (fun a k => k.Stamped thread ∧ post a k) (store.latest? w.storage)) :
    (p.run host w).2.Undisturbed store Sound thread ∧
      ∃ k : Latest, k thread = store.latest? (p.run host w).2.storage thread ∧
        post (p.run host w).1 k := by
  obtain ⟨k, hshows, hk, hpost⟩ := hp.run host (Regime.seenThrough_keeping hworks) h.shows
  exact ⟨of_shows hshows hk, k, (hshows.view.latest thread rfl).symm, hpost⟩

end World.Undisturbed

/-! ## What a walk saves -/

namespace GraphFrame

variable {store : Store} {g : GraphFrame} {nodes : List (String × GraphNode)} {thread : String}
  {m k : Latest} {s : State}

/-- Whether a state waits for nothing and does not fall behind the checkpoint of its thread. -/
structure Ahead (thread : String) (s : State) (k : Latest) : Prop where
  stamped : k.Stamped thread
  waits : s.interrupt = none
  steps : ∀ old, k thread = some old → old.step ≤ s.step

/-- What a step leaves: where the walk goes on, its state does not fall behind, and has been saved
with the node that comes next if every step is saved; where it is complete, its state has been saved
as the end, and where it is suspended, its state has been saved as well. -/
structure Advanced (g : GraphFrame) (thread : String) (onward : Onward) (s : State) (k : Latest) :
    Prop where
  goes : ∀ next, onward = .go next → Ahead thread s k ∧
    (g.config.checkpointInterval = 1 → k thread = some (g.checkpoint thread s (some next)))
  arrives : onward = .stop .complete →
    s.interrupt = none ∧ k thread = some (g.checkpoint thread s none)
  halts : ∀ pending, onward = .stop (.suspended pending) →
    ∃ next, k thread = some (g.checkpoint thread s next)

theorem advanced_failed (e : RunError) : g.Advanced thread (.stop (.failed e)) s k :=
  ⟨by rintro _ ⟨⟩, by rintro ⟨⟩, by rintro _ ⟨⟩⟩

/-- Every step is saved when the interval is a single step. -/
theorem isDue_of_every {c : RunConfig} (hevery : c.checkpointInterval = 1) {step : Nat}
    (hstep : 0 < step) : c.isDue step = true := by
  unfold RunConfig.isDue
  rw [hevery]
  simp [hstep, Nat.mod_one]

theorem save_advances (hstore : g.store = some store) (hk : Ahead thread s k)
    (next : Option String) :
    (g.save thread s next).Meets (.keeping store (thread = ·)) (Latest.Stamped thread)
      (fun r l => r = .ok () ∧ l = Function.update k thread (some (g.checkpoint thread s next)))
      k :=
  save_keeping hstore rfl hk.steps

/-- Where the table leads from a node, as what is left to do. -/
def led (g : GraphFrame) (node : String) (fields : Fields) : Onward :=
  match g.table.next node fields with
  | .error e => .stop (.failed e)
  | .ok (some next) => .go next
  | .ok none => .stop .complete

/-- On a working store, an update is merged and the walk goes where the table leads. -/
theorem settle_proceed_meets (hstore : g.store = some store) (hk : Ahead thread s k)
    (hstep : 0 < s.step) (node : String) (update : Update) :
    (g.settle thread node s (.proceed update)).Meets (.keeping store (thread = ·))
      (Latest.Stamped thread)
      (fun r l => r = (g.led node (s.apply g.shape update).values, s.apply g.shape update) ∧
        l.Stamped thread ∧ g.Advanced thread r.1 r.2 l) k := by
  have happly : Ahead thread (s.apply g.shape update) k := ⟨hk.stamped, hk.waits, hk.steps⟩
  unfold settle led
  dsimp only
  cases g.table.next node (s.apply g.shape update).values with
  | error e => exact ⟨rfl, hk.stamped, advanced_failed _⟩
  | ok next =>
    cases next with
    | some next =>
      dsimp only
      split
      · apply meets_bind (save_advances hstore happly _)
        rintro _ _ ⟨rfl, rfl⟩
        refine ⟨rfl, Latest.stamped_update, ?_, by rintro ⟨⟩, by rintro _ ⟨⟩⟩
        rintro _ ⟨⟩
        refine ⟨⟨Latest.stamped_update, happly.waits, ?_⟩, fun _ => Function.update_self _ _ _⟩
        intro old hold
        rw [Function.update_self] at hold
        cases hold
        exact Nat.le_refl _
      · next hdue =>
        refine ⟨rfl, hk.stamped, ?_, by rintro ⟨⟩, by rintro _ ⟨⟩⟩
        rintro _ ⟨⟩
        exact ⟨happly, fun hevery => absurd (isDue_of_every hevery hstep) hdue⟩
    | none =>
      apply meets_bind (save_advances hstore happly _)
      rintro _ _ ⟨rfl, rfl⟩
      refine ⟨rfl, Latest.stamped_update, by rintro _ ⟨⟩, fun _ => ?_, by rintro _ ⟨⟩⟩
      exact ⟨happly.waits, Function.update_self _ _ _⟩

theorem settle_advances (hstore : g.store = some store) (hk : Ahead thread s k)
    (hstep : 0 < s.step) (node : String) (outcome : NodeOutcome) :
    (g.settle thread node s outcome).Meets (.keeping store (thread = ·)) (Latest.Stamped thread)
      (fun r l => l.Stamped thread ∧ g.Advanced thread r.1 r.2 l) k := by
  cases outcome with
  | suspend suspension =>
    unfold settle
    refine meets_bind (save_keeping hstore rfl (by exact hk.steps)) ?_
    rintro _ _ ⟨rfl, rfl⟩
    refine ⟨Latest.stamped_update, by rintro _ ⟨⟩, by rintro ⟨⟩, fun _ _ => ?_⟩
    exact ⟨_, Function.update_self _ _ _⟩
  | proceed update =>
    exact (settle_proceed_meets hstore hk hstep node update).mono (fun _ h => h) fun _ _ h => h.2

/-- What a run leaves where it completes: its state as the latest checkpoint, which waits for
nothing and leads nowhere. -/
def Finished (g : GraphFrame) (thread : String) (r : RunResult) (k : Latest) : Prop :=
  ∀ s, r = .complete s → s.interrupt = none ∧ k thread = some (g.checkpoint thread s none)

/-- What a run leaves where it does not fail. Where it is suspended, the latest checkpoint holds its
state. -/
structure Leaves (g : GraphFrame) (thread : String) (r : RunResult) (k : Latest) : Prop where
  finished : g.Finished thread r k
  halted : ∀ pending s, r = .suspended pending s → ∃ c, k thread = some c ∧ c.state = s

theorem leaves_failed (e : RunError) (s : State) : g.Leaves thread (.failed e s) k :=
  ⟨by rintro _ ⟨⟩, by rintro _ _ ⟨⟩⟩

variable (hstore : g.store = some store)
  (hinside : ∀ p ∈ nodes, p.2.EveryGraph (GraphNode.StoredIn (· = store)))

include hstore hinside

/-- A step advances its thread. Its node touches other threads only. -/
theorem enter_advances (hk : Ahead thread s k) {config : RunConfig} {budget : Option Nat}
    {id : String} {resume : Option Value} :
    (g.enter (GraphNode.runnerIn? nodes) ⟨thread, config⟩ budget s id resume).Meets
      (.keeping store (thread = ·)) (Latest.Stamped thread)
      (fun r l => l.Stamped thread ∧ g.Advanced thread r.onward r.state l) k := by
  have hstop (e : RunError) (t : State) {l : Latest} (hl : l = k) :
      l.Stamped thread ∧ g.Advanced thread (.stop (.failed e)) t l := by
    rw [hl]
    exact ⟨hk.stamped, advanced_failed _⟩
  apply enter_meets fun onward s l => l.Stamped thread ∧ g.Advanced thread onward s l
  · exact fun _ => hstop _ _ rfl
  · exact fun _ _ _ => hstop _ _ rfl
  · intro runner t hrunner hvisit
    have ht : Ahead thread t k := by
      obtain ⟨counters, hcounters⟩ := g.visit_eq s id resume
      rw [hvisit] at hcounters
      dsimp only at hcounters
      rw [hcounters]
      exact ⟨hk.stamped, hk.waits, hk.steps⟩
    obtain ⟨node, hmem, rfl⟩ := GraphNode.exists_of_runnerIn? hrunner
    have hcalls := GraphNode.runner_obeys (hinside _ hmem) t
      ⟨thread, config⟩ resume
    have helsewhere : (node.runner t ⟨thread, config⟩ resume).Obeys
        (Call.Elsewhere store (thread = ·)) fun _ => True := by
      refine hcalls.mono (fun c hc => ?_) fun _ _ => trivial
      refine hc.mono fun other below ⟨hother, hbelow⟩ => ⟨hother, ?_⟩
      rintro rfl
      exact Thread.not_inside_self _ hbelow
    have hsame := helsewhere.meets (R := .keeping store (thread = ·)) (· = k)
      (fun l c hl hc => ⟨Or.inl hc, fun a j hj => (hc.unchanged hj).trans hl⟩) (fun _ hc => hc) rfl
    have hruns : (node.runner t ⟨thread, config⟩ resume).Meets (.keeping store (thread = ·))
        (Latest.Stamped thread) (fun _ l => l = k) k := by
      refine hsame.mono ?_ fun _ _ hr => hr.2
      rintro _ rfl
      exact hk.stamped
    refine carryOut_meets (fun onward s l => l.Stamped thread ∧ g.Advanced thread onward s l)
      hruns ?_ ?_ ?_
    · exact fun l hl _ => ⟨hl, advanced_failed _⟩
    · exact fun r e l hl _ => hstop _ _ hl
    · rintro r outcome l rfl _
      have hafter : Ahead thread (afterRun t r) l :=
        ⟨ht.stamped, ht.waits, fun old hold => Nat.le_succ_of_le (ht.steps old hold)⟩
      exact settle_advances hstore hafter (Nat.succ_pos _) id outcome

theorem walk_stamps (hk : Ahead thread s k) (start : String) (resume : Option Value) :
    (g.walk (GraphNode.runnerIn? nodes) s start thread resume).Meets (.keeping store (thread = ·))
      (Latest.Stamped thread) (fun r l => l.Stamped thread ∧ g.Leaves thread r l) k := by
  apply walk_meets
  apply walkFrom_meets (fun s _ _ l => Ahead thread s l)
    (fun ending s l => l.Stamped thread ∧ g.Leaves thread (g.conclude (ending, s)) l)
  · exact fun _ _ _ _ hl => ⟨hl.stamped, leaves_failed _ _⟩
  · intro budget t node resume l hl
    refine (enter_advances hstore hinside hl).mono (fun _ h => h) ?_
    rintro ⟨_, onward, u, _⟩ j ⟨hj, hadvanced⟩
    cases onward with
    | stop ending =>
      refine ⟨hj, ?_⟩
      cases ending with
      | complete =>
        refine ⟨?_, by rintro _ _ ⟨⟩⟩
        rintro _ ⟨⟩
        exact hadvanced.arrives rfl
      | suspended pending =>
        refine ⟨by rintro _ ⟨⟩, ?_⟩
        rintro _ _ ⟨⟩
        obtain ⟨next, hnext⟩ := hadvanced.halts pending rfl
        exact ⟨_, hnext, rfl⟩
      | failed e => exact leaves_failed _ _
    | go next => exact (hadvanced.goes next rfl).1
  · exact hk

/-- A call on a thread leaves its checkpoint at the step of its state, and its own state as the
checkpoint if it completes or is suspended. -/
theorem serves_stamps (hm : m.Stamped thread) {call : Activity RunResult}
    (hcall : Graph.Serves ⟨g, nodes⟩ thread call) :
    call.Meets (.keeping store (thread = ·)) (Latest.Stamped thread)
      (fun r l => l.Stamped thread ∧ g.Leaves thread r l) m := by
  have hfailed (e : RunError) (s : State) {l : Latest} (hl : l.Stamped thread) :
      l.Stamped thread ∧ g.Leaves thread (.failed e s) l :=
    ⟨hl, leaves_failed e s⟩
  have hwalk {c : Checkpoint} (hc : m thread = some c) {s : State} (hs : s.interrupt = none)
      (hstep : s.step = c.state.step) (start : String) (resume : Option Value) :
      (g.walk (GraphNode.runnerIn? nodes) s start thread resume).Meets (.keeping store (thread = ·))
        (Latest.Stamped thread) (fun r l => l.Stamped thread ∧ g.Leaves thread r l) m := by
    refine walk_stamps hstore hinside ⟨hm, hs, ?_⟩ start resume
    rw [hc, hstep]
    rintro _ ⟨⟩
    exact Nat.le_of_eq (hm c hc)
  have hrun (input : Fields) : (g.runThread (GraphNode.runnerIn? nodes) input thread).Meets
      (.keeping store (thread = ·)) (Latest.Stamped thread)
      (fun r l => l.Stamped thread ∧ g.Leaves thread r l) m := by
    unfold runThread
    apply meets_bind (load_keeping hstore rfl)
    rintro _ _ ⟨rfl, rfl⟩
    rename_i m
    cases hc : m thread with
    | none =>
      refine walk_stamps hstore hinside ⟨hm, rfl, ?_⟩ _ _
      rw [hc]
      rintro _ ⟨⟩
    | some c =>
      dsimp only
      cases hpending : c.state.interrupt with
      | some pending =>
        dsimp only
        split
        · refine ⟨hm, by rintro _ ⟨⟩, ?_⟩
          rintro _ _ ⟨⟩
          exact ⟨c, hc, rfl⟩
        · exact hwalk hc (by rfl) (by rfl) _ _
      | none =>
        dsimp only
        split
        · exact hwalk hc (by exact hpending) (by rfl) _ _
        · exact hwalk hc (by exact hpending) (by rfl) _ _
  rcases hcall with ⟨input, rfl⟩ | ⟨value, rfl⟩
  · unfold Graph.run
    split
    · exact hrun _
    · exact hrun _
    · exact hfailed _ _ hm
  · unfold Graph.resume resumeThread
    apply meets_bind (load_keeping hstore rfl)
    rintro _ _ ⟨rfl, rfl⟩
    rename_i m
    cases hc : m thread with
    | none => exact hfailed _ _ hm
    | some c =>
      dsimp only
      cases hpending : c.state.interrupt with
      | none => exact hfailed _ _ hm
      | some pending => exact hwalk hc (by rfl) (by rfl) _ _

end GraphFrame

/-! ## Steps of a run that is cut off -/

namespace GraphFrame

variable {σ : Type} {store : Store} {Sound : Storage → Prop} {thread : String} {g : GraphFrame}
  {runner? : String → Option Runner} {nodes : List (String × GraphNode)} {host : Host σ}
  {w : World σ} {s : State}

/-- A graph that may take another number of steps. -/
def allowing (g : GraphFrame) (steps : Nat) : GraphFrame :=
  { g with config := { g.config with maxSteps := steps } }

theorem save_allowing (steps : Nat) (s : State) (next : Option String) :
    (g.allowing steps).save thread s next = g.save thread s next := by
  have hstore : (g.allowing steps).store = g.store := rfl
  unfold save
  rw [hstore]
  cases g.store with
  | none => rfl
  | some store =>
    dsimp only
    congr 1
    funext saved
    cases saved <;> rfl

theorem carryOut_allowing (steps : Nat) (budget : Option Nat) (s : State) (node : String)
    (p : Activity NodeRun) :
    (g.allowing steps).carryOut thread budget s node p = g.carryOut thread budget s node p := by
  have hsettle (s : State) (outcome : NodeOutcome) :
      (g.allowing steps).settle thread node s outcome = g.settle thread node s outcome := by
    unfold settle
    simp only [save_allowing]
    rfl
  unfold carryOut
  simp only [hsettle]
  rfl

/-- A step is the same whatever number of them the graph may take. -/
theorem enter_allowing
    (hruns : ∀ id runner, runner? id = some runner → Runner.IgnoresSteps runner) (steps : Nat)
    (scope : Scope) (budget : Option Nat) (s : State) (node : String) (resume : Option Value) :
    (g.allowing steps).enter runner? (scope.allowing steps) budget s node resume =
      g.enter runner? scope budget s node resume := by
  unfold enter
  cases hrunner : runner? node with
  | none => rfl
  | some runner =>
    have hvisit : (g.allowing steps).visit s node resume = g.visit s node resume := rfl
    have hthread : (scope.allowing steps).thread = scope.thread := rfl
    dsimp only
    rw [hvisit, hthread]
    split
    · rfl
    · rw [hruns node runner hrunner, carryOut_allowing]

/-- Without a limit for the whole run there is none after a step either. -/
theorem enter_unlimited (scope : Scope) (node : String) (resume : Option Value) :
    (g.enter runner? scope none s node resume).Obeys (fun _ => True) fun r => r.budget = none := by
  unfold enter
  split
  · rfl
  · split
    · rfl
    · unfold carryOut
      have hleft (p : Activity NodeRun) : (p.withinOption none).Obeys (fun _ => True)
          fun r => ∀ x, r = some x → x.2 = none := by
        refine obeys_bind (obeys_trivial p) fun a _ => ?_
        rintro _ ⟨⟩
        rfl
      refine obeys_bind (hleft _) ?_
      rintro (_ | ⟨r, left⟩) h
      · rfl
      · obtain rfl : left = none := h _ rfl
        dsimp only
        split
        · rfl
        · exact obeys_bind (obeys_trivial _) fun _ _ => rfl

/-- What is saved leaves the store ready to be read. -/
theorem still_run_save (hstore : g.store = some store) (next : Option String) :
    ((g.save thread s next).run host w).2.Still store := by
  unfold save
  rw [hstore]
  dsimp only
  have hsaved : ((perform (.save store (g.checkpoint thread s next))).run host w).2.Still store :=
    World.still_run_perform (by cases store <;> exact fun _ h => h) host w
  show ((Activity.bind _ _).run host w).2.Still store
  rw [run_bind]
  split
  · exact hsaved
  · split
    · exact hsaved
    · next keep _ =>
      show ((Activity.bind _ _).run host _).2.Still store
      rw [run_bind]
      exact World.still_run_perform (c := .prune store thread (max keep 1))
        (by cases store <;> exact fun _ h => h) host _

theorem still_run_settle (hstore : g.store = some store) {node next : String}
    (hdue : g.config.isDue s.step = true) {outcome : NodeOutcome}
    (h : ((g.settle thread node s outcome).run host w).1.1 = .go next) :
    ((g.settle thread node s outcome).run host w).2.Still store := by
  have hthen (t : State) (after : Option String) (onward : Onward) :
      ((g.saveThen thread t after onward).run host w).2.Still store := by
    have hsaved : ((g.save thread t after).run host w).2.Still store := still_run_save hstore after
    unfold saveThen
    show ((Activity.bind _ _).run host w).2.Still store
    rw [run_bind]
    split
    · exact hsaved
    · exact hsaved
  cases outcome with
  | suspend suspension => exact hthen _ (some node) _
  | proceed update =>
    revert h
    unfold settle
    dsimp only
    split
    · intro h
      cases h
    · rw [if_pos (by exact hdue)]
      exact fun _ => hthen _ _ _
    · exact fun _ => hthen _ none _

theorem still_run_enter (hstore : g.store = some store) (hevery : g.config.checkpointInterval = 1)
    {scope : Scope} {budget : Option Nat} {node next : String} {resume : Option Value}
    (h : ((g.enter runner? scope budget s node resume).run host w).1.onward = .go next) :
    ((g.enter runner? scope budget s node resume).run host w).2.Still store := by
  revert h
  unfold enter
  split
  · intro h
    cases h
  · split
    · intro h
      cases h
    · unfold carryOut
      show ((Activity.bind _ _ : Activity WalkStep).run host w).1.onward = _ →
        ((Activity.bind _ _ : Activity WalkStep).run host w).2.Still _
      rw [run_bind]
      split
      · intro h
        cases h
      · split
        · intro h
          cases h
        · show ((Activity.bind _ _ : Activity WalkStep).run host _).1.onward = _ →
            ((Activity.bind _ _ : Activity WalkStep).run host _).2.Still _
          rw [run_bind]
          exact still_run_settle hstore (isDue_of_every hevery (Nat.succ_pos _))

/-- Whether a thread has what is needed to go on from a node: the state and the node are its latest
checkpoint, which can be read without anything else going on. -/
structure Saved (g : GraphFrame) (store : Store) (thread : String) (s : State) (node : String)
    (w : World σ) : Prop where
  ahead : Ahead thread s (store.latest? w.storage)
  latest : store.latest? w.storage thread = some (g.checkpoint thread s (some node))
  still : w.Still store

theorem Ahead.congr {m k : Latest} (h : Ahead thread s m) (heq : k thread = m thread) :
    Ahead thread s k := by
  refine ⟨fun c hc => ?_, h.waits, fun old hold => ?_⟩
  · exact h.stamped c (heq ▸ hc)
  · exact h.steps old (heq ▸ hold)

/-- When every step is saved, a thread has what is needed to go on after each of them. -/
theorem enter_saved (hworks : store.Works Sound) (hstore : g.store = some store)
    (hinside : ∀ p ∈ nodes, p.2.EveryGraph (GraphNode.StoredIn (· = store)))
    (hevery : g.config.checkpointInterval = 1) (hw : w.Undisturbed store Sound thread)
    (hs : Ahead thread s (store.latest? w.storage)) {config : RunConfig} {budget : Option Nat}
    {node : String} {resume : Option Value} {r : WalkStep × World σ}
    (hr : (g.enter (GraphNode.runnerIn? nodes) ⟨thread, config⟩ budget s node resume).run host w =
      r) :
    r.2.Undisturbed store Sound thread ∧
      ∀ next, r.1.onward = .go next → g.Saved store thread r.1.state next r.2 := by
  subst hr
  obtain ⟨hafter, k, hk, hadvanced⟩ := hw.run hworks host (enter_advances hstore hinside hs)
  refine ⟨hafter, fun next hnext => ?_⟩
  obtain ⟨hahead, hsaved⟩ := hadvanced.goes next hnext
  exact ⟨hahead.congr hk.symm, hk.symm.trans (hsaved hevery), still_run_enter hstore hevery hnext⟩

end GraphFrame

/-! ## Continuing a run -/

/-- Whether a run has failed because its steps were used up. -/
def RunResult.IsCutOff : RunResult → Prop
  | .failed (.maxStepsExceeded _) _ => True
  | _ => False

theorem RunResult.not_isCutOff {r : RunResult} (h : ∀ e s, r ≠ .failed e s) : ¬ r.IsCutOff := by
  unfold IsCutOff
  split
  · next s => exact absurd rfl (h _ s)
  · exact id

namespace Graph

variable {σ : Type} {store : Store} {Sound : Storage → Prop} {thread : String} {g : Graph}
  {host : Host σ} {w : World σ}

/-- What a thread comes to in the end, when it is run with nothing again and again for as long as
its runs are cut off: the result of the last run, and the world after it. -/
inductive Continued (g : Graph) (thread : String) (host : Host σ) :
    RunResult × World σ → RunResult × World σ → Prop where
  | ended {x : RunResult × World σ} (h : ¬ x.1.IsCutOff) : Continued g thread host x x
  | further {x y : RunResult × World σ} (h : x.1.IsCutOff)
    (hrest : Continued g thread host ((g.run (.object []) thread).run host x.2) y) :
    Continued g thread host x y

/-- Whether a graph saves every step in a store, and runs without a timeout. -/
structure Stepwise (g : Graph) (store : Store) : Prop where
  here : g.frame.store = some store
  inside : ∀ p ∈ g.nodes, p.2.EveryGraph (GraphNode.StoredIn (· = store))
  every : g.frame.config.checkpointInterval = 1
  unlimited : g.frame.config.workflowTimeout = none

/-- A graph that may take another number of steps. -/
def allowing (g : Graph) (steps : Nat) : Graph := { g with frame := g.frame.allowing steps }

/-- What a walk comes to in a world. -/
def walked (g : Graph) (thread : String) (s : State) (node : String) (resume : Option Value)
    (steps : Nat) (host : Host σ) (w : World σ) : RunResult × World σ :=
  ((g.frame.walkFrom g.runner? ⟨thread, g.frame.config⟩ none s node resume steps >>= fun r =>
    pure (g.frame.conclude r)).run host w)

theorem walked_succ (s : State) (node : String) (resume : Option Value) (steps : Nat)
    {r : WalkStep × World σ}
    (hr : (g.frame.enter g.runner? ⟨thread, g.frame.config⟩ none s node resume).run host w = r) :
    g.walked thread s node resume (steps + 1) host w =
      match r.1.onward with
      | .stop ending => (g.frame.conclude (ending, r.1.state), r.2)
      | .go next => g.walked thread r.1.state next none steps host r.2 := by
  have hbudget : r.1.budget = none := by
    rw [← hr]
    exact (GraphFrame.enter_unlimited ⟨thread, g.frame.config⟩ node resume).run host w
  unfold walked
  rw [GraphFrame.walkFrom_succ, Activity.bind_bind]
  show ((Activity.bind _ _ : Activity RunResult).run host w) = _
  rw [run_bind, hr]
  unfold GraphFrame.goOn
  cases r.1.onward with
  | stop ending => rfl
  | go next =>
    dsimp only
    rw [hbudget]

theorem run_walk (htimeout : g.frame.config.workflowTimeout = none) (s : State) (node : String)
    (resume : Option Value) :
    (g.frame.walk g.runner? s node thread resume).run host w =
      g.walked thread s node resume g.frame.config.maxSteps host w := by
  rw [GraphFrame.walk_eq, htimeout]
  rfl

/-- A thread that has what is needed to go on does so when it is run with nothing. -/
theorem run_of_saved (hg : g.Stepwise store) (host : Host σ) (hworks : store.Works Sound)
    (hw : w.Undisturbed store Sound thread) {s : State} {node : String}
    (hsaved : g.frame.Saved store thread s node w) :
    (g.run (.object []) thread).run host w =
      g.walked thread s node none g.frame.config.maxSteps host w := by
  have hload : (g.frame.load thread).run host w =
      (.ok (some (g.frame.checkpoint thread s (some node))), w) := by
    unfold GraphFrame.load
    rw [hg.here]
    show (Except.mapError RunError.checkpoint _, _) = _
    rw [hsaved.still.beforeLoad]
    show (Except.mapError _ (store.load w.storage thread), w) = _
    rw [hworks.load _ thread hw.storage, hsaved.latest]
    rfl
  have hwaits : (g.frame.checkpoint thread s (some node)).state.interrupt = none :=
    hsaved.ahead.waits
  unfold Graph.run GraphFrame.runThread
  show ((Activity.bind _ _ : Activity RunResult).run host w) = _
  rw [run_bind, hload]
  simp only [hwaits]
  exact run_walk hg.unlimited s node none

/-- **A walk that is cut off and continued ends as a longer one.** By induction on the steps of the
longer one, for any number of steps that are left in the run under way. When none are left, the
thread has what is needed to go on, and does so in the next run. -/
theorem walked_continued (hg : g.Stepwise store) (hworks : store.Works Sound) {steps : Nat}
    (hsteps : 0 < steps)
    (most left : Nat) {s : State} {node : String} {resume : Option Value}
    (hw : w.Undisturbed store Sound thread)
    (hs : GraphFrame.Ahead thread s (store.latest? w.storage))
    (hleft : left = 0 → resume = none ∧ g.frame.Saved store thread s node w)
    (hends : ∀ e t, (g.walked thread s node resume most host w).1 ≠ .failed e t) :
    (g.allowing steps).Continued thread host
      ((g.allowing steps).walked thread s node resume left host w)
      (g.walked thread s node resume most host w) := by
  have hruns : ∀ id runner, g.runner? id = some runner → Runner.IgnoresSteps runner := by
    intro id runner hrunner
    obtain ⟨node, _, rfl⟩ := GraphNode.exists_of_runnerIn? hrunner
    exact node.runner_allowing
  induction most generalizing left s node resume w with
  | zero => exact absurd rfl (hends _ _)
  | succ most ih =>
    have hstep (left : Nat) : (g.allowing steps).Continued thread host
        ((g.allowing steps).walked thread s node resume (left + 1) host w)
        (g.walked thread s node resume (most + 1) host w) := by
      generalize hr : (g.frame.enter g.runner? ⟨thread, g.frame.config⟩ none s node resume).run
        host w = r
      have hcut : ((g.allowing steps).frame.enter (g.allowing steps).runner?
          ⟨thread, (g.allowing steps).frame.config⟩ none s node resume).run host w = r := by
        rw [← hr]
        exact congrArg (Activity.run host w) (GraphFrame.enter_allowing hruns steps
          ⟨thread, g.frame.config⟩ none s node resume)
      obtain ⟨hafter, hsaved⟩ := GraphFrame.enter_saved hworks hg.here hg.inside hg.every hw hs hr
      rw [walked_succ s node resume most hr] at hends ⊢
      rw [walked_succ s node resume left hcut]
      cases honward : r.1.onward with
      | stop ending =>
        rw [honward] at hends
        exact .ended (RunResult.not_isCutOff hends)
      | go next =>
        rw [honward] at hends
        have hnext := hsaved next honward
        exact ih left hafter hnext.ahead (fun _ => ⟨rfl, hnext⟩) hends
    cases left with
    | succ left => exact hstep left
    | zero =>
      obtain ⟨rfl, hsaved⟩ := hleft rfl
      obtain ⟨left, hsucc⟩ := Nat.exists_eq_succ_of_ne_zero (Nat.ne_of_gt hsteps)
      have hallowed : (g.allowing steps).frame.Saved store thread s node w :=
        ⟨hsaved.ahead, hsaved.latest, hsaved.still⟩
      have hmax : (g.allowing steps).frame.config.maxSteps = left + 1 := hsucc
      refine .further trivial ?_
      have hcontinues : (g.allowing steps).Stepwise store :=
        ⟨hg.here, hg.inside, hg.every, hg.unlimited⟩
      have hrest := run_of_saved hcontinues host hworks hw hallowed
      rw [hmax] at hrest
      show (g.allowing steps).Continued thread host
        (((g.allowing steps).run (.object []) thread).run host w) _
      rw [hrest]
      exact hstep left

theorem walk_continued (hg : g.Stepwise store) (hworks : store.Works Sound) {steps : Nat}
    (hsteps : 0 < steps)
    {s : State} {node : String} {resume : Option Value}
    (hw : w.Undisturbed store Sound thread)
    (hs : GraphFrame.Ahead thread s (store.latest? w.storage))
    (hends : ∀ e t, ((g.frame.walk g.runner? s node thread resume).run host w).1 ≠ .failed e t) :
    (g.allowing steps).Continued thread host
      (((g.allowing steps).frame.walk g.runner? s node thread resume).run host w)
      ((g.frame.walk g.runner? s node thread resume).run host w) := by
  have hcut : ((g.allowing steps).frame.walk g.runner? s node thread resume).run host w =
      (g.allowing steps).walked thread s node resume steps host w :=
    run_walk (g := g.allowing steps) hg.unlimited s node resume
  rw [run_walk hg.unlimited] at hends ⊢
  rw [hcut]
  refine walked_continued hg hworks hsteps _ _ hw hs ?_ hends
  intro hzero
  exact absurd hzero (Nat.ne_of_gt hsteps)

/-- What a run loads first is the same whatever number of steps it may take. -/
theorem runThread_continued (hg : g.Stepwise store) (hworks : store.Works Sound) {steps : Nat}
    (hsteps : 0 < steps)
    (hw : w.Undisturbed store Sound thread) (input : Fields)
    (hends : ∀ e s, ((g.frame.runThread g.runner? input thread).run host w).1 ≠ .failed e s) :
    (g.allowing steps).Continued thread host
      (((g.allowing steps).frame.runThread g.runner? input thread).run host w)
      ((g.frame.runThread g.runner? input thread).run host w) := by
  have hload : (g.frame.load thread).Meets (.keeping store (thread = ·)) (Latest.Stamped thread)
      (fun r k => k.Stamped thread ∧ r = .ok (store.latest? w.storage thread) ∧
        k = store.latest? w.storage) (store.latest? w.storage) := by
    refine (GraphFrame.load_keeping hg.here rfl).mono (fun _ hk => hk) ?_
    rintro r k ⟨hr, rfl⟩
    exact ⟨hw.stamped, hr, rfl⟩
  obtain ⟨hv, k, hk, hloaded, rfl⟩ := hw.run hworks host hload
  have hsame : (g.allowing steps).frame.load thread = g.frame.load thread := rfl
  have hwalk {s : State} (node : String) (resume : Option Value) (hs : s.interrupt = none)
      (hsteps : ∀ old, store.latest? w.storage thread = some old → old.step ≤ s.step)
      (hends : ∀ e t, ((g.frame.walk g.runner? s node thread resume).run host
        ((g.frame.load thread).run host w).2).1 ≠ .failed e t) :=
    walk_continued hg hworks ‹0 < steps› hv
      (GraphFrame.Ahead.congr ⟨hw.stamped, hs, hsteps⟩ hk.symm) hends
  unfold GraphFrame.runThread at hends ⊢
  rw [hsame]
  change ∀ e s, ((Activity.bind _ _ : Activity RunResult).run host w).1 ≠ _ at hends
  show (g.allowing steps).Continued thread host
    ((Activity.bind _ _ : Activity RunResult).run host w)
    ((Activity.bind _ _ : Activity RunResult).run host w)
  rw [run_bind] at hends ⊢
  rw [run_bind]
  rw [hloaded] at hends ⊢
  cases hlatest : store.latest? w.storage thread with
  | none =>
    rw [hlatest] at hends hwalk
    refine hwalk _ _ rfl ?_ hends
    rintro _ ⟨⟩
  | some c =>
    rw [hlatest] at hends hwalk
    have hsteps (s : State) (hs : s.step = c.state.step) :
        ∀ old, some c = some old → old.step ≤ s.step := by
      rintro _ ⟨⟩
      rw [hw.stamped c hlatest, hs]
    dsimp only at hends ⊢
    cases hpending : c.state.interrupt with
    | some pending =>
      simp only [hpending] at hends ⊢
      split
      · exact .ended id
      · next value hvalue =>
        rw [hvalue] at hends
        exact hwalk _ _ rfl (hsteps _ rfl) hends
    | none =>
      simp only [hpending] at hends ⊢
      split
      · next node hnode =>
        rw [hnode] at hends
        exact hwalk _ _ hpending (hsteps _ rfl) hends
      · next hnode =>
        rw [hnode] at hends
        exact hwalk _ _ hpending (hsteps _ rfl) hends

end Graph

/-- A thread that is left alone stays so when a graph is run on it or resumed. If the call completes,
the thread holds its state as the end. -/
theorem World.Undisturbed.serves {σ : Type} {store : Store} {Sound : Storage → Prop}
    {thread : String} {w : World σ} (hw : w.Undisturbed store Sound thread)
    (hworks : store.Works Sound) {g : Graph} (hstore : g.frame.store = some store)
    (hinside : ∀ p ∈ g.nodes, p.2.EveryGraph (GraphNode.StoredIn (· = store)))
    (host : Host σ) {call : Activity RunResult} (hcall : g.Serves thread call) :
    (call.run host w).2.Undisturbed store Sound thread ∧
      g.frame.Finished thread (call.run host w).1 (store.latest? (call.run host w).2.storage) := by
  obtain ⟨hafter, k, hk, hleaves⟩ :=
    hw.run hworks host (GraphFrame.serves_stamps hstore hinside hw.stamped hcall)
  refine ⟨hafter, fun s hs => ?_⟩
  rw [← hk]
  exact hleaves.finished s hs

/-- If the call is suspended, the thread holds its state. -/
theorem World.Undisturbed.serves_suspended {σ : Type} {store : Store} {Sound : Storage → Prop}
    {thread : String} {w : World σ} (hw : w.Undisturbed store Sound thread)
    (hworks : store.Works Sound) {g : Graph} (hstore : g.frame.store = some store)
    (hinside : ∀ p ∈ g.nodes, p.2.EveryGraph (GraphNode.StoredIn (· = store)))
    (host : Host σ) {call : Activity RunResult} (hcall : g.Serves thread call)
    {pending : PendingInterrupt} {s : State}
    (hsuspended : (call.run host w).1 = .suspended pending s) :
    ∃ c, store.latest? (call.run host w).2.storage thread = some c ∧ c.state = s := by
  obtain ⟨_, k, hk, hleaves⟩ :=
    hw.run hworks host (GraphFrame.serves_stamps hstore hinside hw.stamped hcall)
  rw [← hk]
  exact hleaves.halted pending s hsuspended

/-! ## The main result -/

/-- Two nodes, one after the other. -/
def relay : Definition where
  version := none
  name := "relay"
  description := none
  entry := none
  defaults := .standard
  tools := []
  nodes := [⟨"first", .passthrough ⟨[("baton", .text "passed")], [], []⟩, .unset⟩,
    ⟨"second", .passthrough ⟨[], [("hand", "baton")], []⟩, .unset⟩]
  edges := [⟨"first", .one "second", none⟩, ⟨"second", .one "END", none⟩]
  loopLimits := []
  checkpoint := none

/-- The graph that the two nodes are compiled to. -/
def relayGraph : Graph where
  frame :=
    { name := "relay"
      table := ⟨"first", [("first", .direct (.node "second")), ("second", .direct .finish)], [], []⟩
      shape := ⟨[("baton", ⟨.any, .overwrite, ["first"], .output⟩),
        ("hand", ⟨.any, .overwrite, ["second"], .output⟩)]⟩
      config := .standard
      store := some .memory }
  nodes := [("first", .leaf ⟨"first", none, ⟨.fail, none, none, ["baton"], []⟩⟩
      (.passthrough ⟨[("baton", .text "passed")], [], []⟩)),
    ("second", .leaf ⟨"second", none, ⟨.fail, none, none, ["hand"], []⟩⟩
      (.passthrough ⟨[], [("hand", "baton")], []⟩))]

end WorkflowGraph
