import WorkflowGraph.Proofs.Graph.Continuation
import WorkflowGraph.Proofs.Graph.Journal

/-!
# Runs over their suspensions

A run that is suspended goes on with a further call on its thread. A journey is a run from the entry
with all the calls that go on with it (`Graph.Journey`); its journal is that of its walks, one after
the other. Between two calls the thread is only asked to be loaded with the state that the run was
suspended with, as it is if its store works and it is left alone (`World.Undisturbed.recalls`).

What the calls do is independent of the world once it is known what they have loaded: a journey is a
walk from the entry, and then one for each suspension, from where the run has stopped
(`Graph.Journey.travelled`).
-/

set_option autoImplicit false

namespace WorkflowGraph

open Activity

/-! ## Calls with journals -/

/-- Where a walk sets out. -/
structure Outset where
  state : State
  node : String
  resume : Option Value

namespace GraphFrame

/-- Where a run of a thread sets out with what has been loaded, or what it comes to at once. -/
def runOutset (g : GraphFrame) (input : Fields) : Option Checkpoint → RunResult ⊕ Outset
  | none => .inr ⟨.ofFields input, g.table.entry, none⟩
  | some c =>
    match c.state.interrupt with
    | some pending =>
      match Dict.get? input pending.resumeKey with
      | none => .inl (.suspended pending c.state)
      | some value =>
        let s := c.state.mergeInput (Dict.drop input pending.resumeKey)
        .inr ⟨{ s with interrupt := none }, pending.node, some value⟩
    | none =>
      let s := c.state.mergeInput input
      match c.next with
      | some node => .inr ⟨s, node, none⟩
      | none => .inr ⟨{ s with loopCounters := [] }, g.table.entry, none⟩

/-- Where a resumed thread sets out with what has been loaded, or what it comes to at once. -/
def resumeOutset (thread : String) (value : Value) : Option Checkpoint → RunResult ⊕ Outset
  | none => .inl (.failed (.noPendingInterrupt thread) .blank)
  | some c =>
    match c.state.interrupt with
    | none => .inl (.failed (.noPendingInterrupt thread) c.state)
    | some pending => .inr ⟨{ c.state with interrupt := none }, pending.node, some value⟩

/-- Load a thread, walk from where that leads, and keep a journal. -/
def journalCall (g : GraphFrame) (runner? : String → Option Runner) (thread : String)
    (outset : Option Checkpoint → RunResult ⊕ Outset) : Activity (List Station × RunResult) := do
  match ← g.load thread with
  | .error e => pure ([], .failed e .blank)
  | .ok loaded =>
    match outset loaded with
    | .inl r => pure ([], r)
    | .inr o => g.journal runner? o.state o.node thread o.resume

variable {g : GraphFrame} {runner? : String → Option Runner} {thread : String}

theorem runThread_eq_journalCall (input : Fields) :
    g.runThread runner? input thread =
      g.journalCall runner? thread (g.runOutset input) >>= fun r => pure r.2 := by
  unfold runThread journalCall
  rw [Activity.bind_bind]
  congr 1
  funext loaded
  rcases loaded with e | _ | c
  · rfl
  · exact walk_eq_journal _ _ _ _
  · dsimp only [runOutset]
    cases c.state.interrupt with
    | some pending =>
      dsimp only
      cases Dict.get? input pending.resumeKey with
      | none => rfl
      | some value => exact walk_eq_journal _ _ _ _
    | none =>
      dsimp only
      cases c.next with
      | none => exact walk_eq_journal _ _ _ _
      | some node => exact walk_eq_journal _ _ _ _

theorem resumeThread_eq_journalCall (value : Value) :
    g.resumeThread runner? thread value =
      g.journalCall runner? thread (resumeOutset thread value) >>= fun r => pure r.2 := by
  unfold resumeThread journalCall
  rw [Activity.bind_bind]
  congr 1
  funext loaded
  rcases loaded with e | _ | c
  · rfl
  · rfl
  · dsimp only [resumeOutset]
    cases c.state.interrupt with
    | none => rfl
    | some pending => exact walk_eq_journal _ _ _ _

theorem load_obeys_checkpoint (g : GraphFrame) (thread : String) :
    (g.load thread).Obeys (fun _ => True) fun r =>
      ∀ e, r = .error e → ∃ cause, e = .checkpoint cause := by
  unfold load
  split
  · rintro e ⟨⟩
  · refine ⟨trivial, ?_⟩
    rintro (cause | c)
    · rintro e ⟨⟩
      exact ⟨cause, rfl⟩
    · rintro e ⟨⟩

/-- What a call comes to is read off what its thread is loaded with: nothing if it cannot be loaded,
and else what comes of where the call sets out. -/
theorem run_journalCall {σ : Type} {host : Host σ} {w : World σ}
    {outset : Option Checkpoint → RunResult ⊕ Outset} {P : List Station × RunResult → Prop}
    (hlost : ∀ cause, ((g.load thread).run host w).1 = .error (.checkpoint cause) →
      P ([], .failed (.checkpoint cause) .blank))
    (hended : ∀ loaded r, ((g.load thread).run host w).1 = .ok loaded →
      outset loaded = .inl r → P ([], r))
    (hwalk : ∀ loaded o, ((g.load thread).run host w).1 = .ok loaded → outset loaded = .inr o →
      (g.journal runner? o.state o.node thread o.resume).Obeys (fun _ => True) P) :
    P ((g.journalCall runner? thread outset).run host w).1 := by
  have hload := (g.load_obeys_checkpoint thread).run host w
  unfold journalCall
  show P ((Activity.bind _ _).run host w).1
  rw [run_bind]
  rcases hloaded : ((g.load thread).run host w).1 with e | loaded
  · obtain ⟨cause, rfl⟩ := hload e hloaded
    exact hlost cause hloaded
  · dsimp only
    rcases houtset : outset loaded with r | o
    · exact hended loaded r hloaded houtset
    · exact (hwalk loaded o hloaded houtset).run host _

end GraphFrame

namespace Graph

/-- Run a thread, and keep a journal. -/
def journalRun (g : Graph) (input : Fields) (thread : String) :
    Activity (List Station × RunResult) :=
  g.frame.journalCall g.runner? thread (g.frame.runOutset input)

/-- Resume a thread, and keep a journal. -/
def journalResume (g : Graph) (thread : String) (value : Value) :
    Activity (List Station × RunResult) :=
  g.frame.journalCall g.runner? thread (GraphFrame.resumeOutset thread value)

/-- Without its journal, a run that keeps one is the run itself. -/
theorem run_eq_journalRun (g : Graph) (input : Fields) (thread : String) :
    g.run (.object input) thread = g.journalRun input thread >>= fun r => pure r.2 :=
  GraphFrame.runThread_eq_journalCall input

theorem resume_eq_journalResume (g : Graph) (thread : String) (value : Value) :
    g.resume thread value = g.journalResume thread value >>= fun r => pure r.2 :=
  GraphFrame.resumeThread_eq_journalCall value

/-! ## Journeys -/

/-- Whether a thread is loaded with a state, if it can be loaded. -/
def Recalls {σ : Type} (g : Graph) (thread : String) (s : State) (host : Host σ) (w : World σ) :
    Prop :=
  ∀ loaded, ((g.frame.load thread).run host w).1 = .ok loaded → ∃ c, loaded = some c ∧ c.state = s

/-- The fields with which a thread starts at the entry. -/
def startWith (input : Fields) : Option Checkpoint → Fields
  | none => input
  | some c => Dict.merge c.state.values input

/-- Whether a run starts from the entry with certain fields, keeps a journal through all the calls
that go on with it, and comes to a result. It starts on a thread that has no checkpoint, or that has
completed, and goes on in worlds that recall the state in which it was suspended, with runs of the
thread or the value that it waits for. The inputs of all runs are some of those given. -/
inductive Journey {σ : Type} (g : Graph) (thread : String) (host : Host σ)
    (given : Fields → Prop) : Fields → List Station → RunResult → Prop where
  | begun {w : World σ} {loaded : Option Checkpoint} {input : Fields} (hinput : given input)
    (hload : ((g.frame.load thread).run host w).1 = .ok loaded)
    (hcomplete : ∀ c, loaded = some c → c.state.interrupt = none ∧ c.next = none) :
    Journey g thread host given (startWith input loaded)
      ((g.journalRun input thread).run host w).1.1 ((g.journalRun input thread).run host w).1.2
  | again {w : World σ} {start : Fields} {journal : List Station} {pending : PendingInterrupt}
    {s : State} {call : Activity (List Station × RunResult)}
    (h : Journey g thread host given start journal (.suspended pending s))
    (hrecalls : g.Recalls thread s host w)
    (hcall : (∃ input, given input ∧ call = g.journalRun input thread) ∨
      ∃ value, call = g.journalResume thread value) :
    Journey g thread host given start (journal ++ (call.run host w).1.1) (call.run host w).1.2

end Graph

/-- A thread that is left alone on a working store recalls the state in which a call has been
suspended. -/
theorem World.Undisturbed.recalls {σ : Type} {store : Store} {Sound : Storage → Prop}
    {thread : String} {w : World σ} (hw : w.Undisturbed store Sound thread)
    (hworks : store.Works Sound) {g : Graph} (hstore : g.frame.store = some store)
    (hinside : ∀ p ∈ g.nodes, p.2.EveryGraph (GraphNode.StoredIn (· = store)))
    (host : Host σ) {call : Activity RunResult} (hcall : g.Serves thread call)
    {pending : PendingInterrupt} {s : State}
    (hsuspended : (call.run host w).1 = .suspended pending s) :
    (call.run host w).2.Undisturbed store Sound thread ∧
      g.Recalls thread s host (call.run host w).2 := by
  obtain ⟨hafter, _⟩ := hw.serves hworks hstore hinside host hcall
  refine ⟨hafter, fun loaded hloaded => ?_⟩
  obtain ⟨c, hc, hs⟩ := hw.serves_suspended hworks hstore hinside host hcall hsuspended
  have hmeets : (g.frame.load thread).Meets (.keeping store (thread = ·)) (Latest.Stamped thread)
      (fun r k => k.Stamped thread ∧ r = .ok (some c))
      (store.latest? (call.run host w).2.storage) := by
    refine (GraphFrame.load_keeping hstore rfl).mono (fun _ h => h) ?_
    rintro _ _ ⟨rfl, rfl⟩
    exact ⟨hafter.stamped, congrArg Except.ok hc⟩
  obtain ⟨_, k, _, hload⟩ := hafter.run hworks host hmeets
  rw [hload] at hloaded
  cases hloaded
  exact ⟨c, rfl, hs⟩

/-! ## Journeys as chains of walks -/

namespace GraphFrame

variable {g : GraphFrame} {Q : String → State → Option Value → NodeRun → Prop}
  {given : Fields → Prop}

/-- Whether a field is one that no input brings. -/
def Unbrought (given : Fields → Prop) (field : String) : Prop :=
  ∀ fields, given fields → Dict.get? fields field = none

/-- A journey as a chain of walks: one from the entry, with all counters at zero, and one for each
suspension, with what the input of a run has brought. The last call may have found its thread
lost. -/
inductive Travelled (g : GraphFrame) (Q : String → State → Option Value → NodeRun → Prop)
    (given : Fields → Prop) : Fields → List Station → RunResult → Prop where
  | begun {s t : State} {journal : List Station} {ending : WalkEnd} (hcounters : s.loopCounters = [])
    (hwalk : g.Walked Q s g.table.entry none journal ending t) :
    Travelled g Q given s.values journal (g.conclude (ending, t))
  | again {start input : Fields} {journal more : List Station} {pending : PendingInterrupt}
    {s t : State} {value : Value} {ending : WalkEnd}
    (h : Travelled g Q given start journal (.suspended pending s))
    (hinput : ∀ field, Unbrought given field → Dict.get? input field = none)
    (hwalk : g.Walked Q { s.mergeInput input with interrupt := none } pending.node (some value) more
      ending t) :
    Travelled g Q given start (journal ++ more) (g.conclude (ending, t))
  | lost {start : Fields} {journal : List Station} {pending : PendingInterrupt} {s : State}
    (h : Travelled g Q given start journal (.suspended pending s)) (cause : StoreError) :
    Travelled g Q given start journal (.failed (.checkpoint cause) .blank)

theorem Walked.interrupt {s t : State} {node : String} {resume : Option Value}
    {journal : List Station} {pending : PendingInterrupt}
    (h : g.Walked Q s node resume journal (.suspended pending) t) :
    t.interrupt = some pending := by
  generalize hending : WalkEnd.suspended pending = ending at h
  induction h with
  | spent => cases hending
  | stop h =>
    subst hending
    cases h with
    | settled _ _ _ h =>
      cases h
      rfl
  | go _ _ ih => exact ih hending

theorem interrupt_of_conclude {s t u : State} {node : String} {resume : Option Value}
    {journal : List Station} {pending : PendingInterrupt} {ending : WalkEnd}
    (hwalk : g.Walked Q s node resume journal ending t)
    (h : g.conclude (ending, t) = .suspended pending u) : u.interrupt = some pending := by
  cases ending with
  | complete => cases h
  | failed e => cases h
  | suspended pending =>
    cases h
    exact hwalk.interrupt

theorem Travelled.interrupt {start : Fields} {journal : List Station} {pending : PendingInterrupt}
    {s : State} (h : g.Travelled Q given start journal (.suspended pending s)) :
    s.interrupt = some pending := by
  generalize hresult : RunResult.suspended pending s = result at h
  cases h with
  | begun _ hwalk => exact interrupt_of_conclude hwalk hresult.symm
  | again _ _ hwalk => exact interrupt_of_conclude hwalk hresult.symm
  | lost => cases hresult

/-- How a call goes on with a run that waits: it says so again, or enters the node that waits, with
what an input has brought. -/
inductive GoesOn (given : Fields → Prop) (pending : PendingInterrupt) (s : State) :
    RunResult ⊕ Outset → Prop where
  | waits : GoesOn given pending s (.inl (.suspended pending s))
  | enters {input : Fields} {value : Value}
    (hinput : ∀ field, Unbrought given field → Dict.get? input field = none) :
    GoesOn given pending s
      (.inr ⟨{ s.mergeInput input with interrupt := none }, pending.node, some value⟩)

theorem runOutset_goesOn {input : Fields} (hgiven : given input) {c : Checkpoint}
    {pending : PendingInterrupt} (hpending : c.state.interrupt = some pending) :
    GoesOn given pending c.state (g.runOutset input (some c)) := by
  simp only [runOutset, hpending]
  split
  · exact .waits
  · exact .enters fun field hfield => Dict.get?_drop_eq_none (hfield input hgiven)

theorem resumeOutset_goesOn (thread : String) (value : Value) {c : Checkpoint}
    {pending : PendingInterrupt} (hpending : c.state.interrupt = some pending) :
    GoesOn given pending c.state (resumeOutset thread value (some c)) := by
  simp only [resumeOutset, hpending]
  exact @GoesOn.enters given pending c.state [] value fun _ _ => rfl

/-- A run of a thread that has no checkpoint, or has completed, sets out from the entry, with all
counters at zero. -/
theorem runOutset_of_complete (g : GraphFrame) (input : Fields) {loaded : Option Checkpoint}
    (hcomplete : ∀ c, loaded = some c → c.state.interrupt = none ∧ c.next = none) :
    ∃ s : State, g.runOutset input loaded = .inr ⟨s, g.table.entry, none⟩ ∧ s.loopCounters = [] ∧
      s.values = Graph.startWith input loaded := by
  cases loaded with
  | none => exact ⟨_, rfl, rfl, rfl⟩
  | some c =>
    obtain ⟨hwaits, hnext⟩ := hcomplete c rfl
    simp only [runOutset, hwaits, hnext]
    exact ⟨_, rfl, rfl, rfl⟩

end GraphFrame

namespace Graph

variable {σ : Type} {g : Graph} {thread : String} {host : Host σ} {given : Fields → Prop}
  {Q : String → State → Option Value → NodeRun → Prop}

section Calls

variable (hruns : ∀ id runner, g.runner? id = some runner → ∀ s scope resume,
  (runner s scope resume).Obeys (fun _ => True) (Q id s resume))

include hruns

theorem journal_obeys (o : Outset) :
    (g.frame.journal g.runner? o.state o.node thread o.resume).Obeys (fun _ => True) fun r =>
      ∃ ending t, g.frame.Walked Q o.state o.node o.resume r.1 ending t ∧
        r.2 = g.frame.conclude (ending, t) :=
  obeys_iff_yields.2 <| GraphFrame.journal_yields
    (fun id runner hr s scope resume => obeys_iff_yields.1 (hruns id runner hr s scope resume))
    _ _ _ _

/-- A call that starts at the entry is a walk from there. -/
theorem travelled_begun {w : World σ} {input : Fields} {loaded : Option Checkpoint}
    (hload : ((g.frame.load thread).run host w).1 = .ok loaded)
    (hcomplete : ∀ c, loaded = some c → c.state.interrupt = none ∧ c.next = none) :
    g.frame.Travelled Q given (startWith input loaded)
      ((g.journalRun input thread).run host w).1.1 ((g.journalRun input thread).run host w).1.2 := by
  obtain ⟨s, hsets, hcounters, hvalues⟩ :=
    g.frame.runOutset_of_complete input hcomplete
  refine GraphFrame.run_journalCall (P := fun r =>
    g.frame.Travelled Q given (startWith input loaded) r.1 r.2) ?_ ?_ ?_
  · intro cause hlost
    rw [hload] at hlost
    cases hlost
  · intro other r hother hended
    rw [hload] at hother
    cases hother
    rw [hsets] at hended
    cases hended
  · intro other o hother houtset
    rw [hload] at hother
    cases hother
    rw [hsets] at houtset
    cases houtset
    refine (journal_obeys hruns _).mono (fun _ h => h) ?_
    rintro ⟨journal, _⟩ ⟨ending, t, hwalked, rfl⟩
    rw [← hvalues]
    exact .begun hcounters hwalked

/-- A call that goes on with a suspended run adds a walk from where the run has stopped, unless the
thread cannot be loaded, or the run still waits. -/
theorem travelled_again {w : World σ} {start : Fields} {journal : List Station}
    {pending : PendingInterrupt} {s : State}
    (h : g.frame.Travelled Q given start journal (.suspended pending s))
    (hrecalls : g.Recalls thread s host w) {outset : Option Checkpoint → RunResult ⊕ Outset}
    (houtset : ∀ c, c.state = s → GraphFrame.GoesOn given pending s (outset (some c))) :
    g.frame.Travelled Q given start
      (journal ++ ((g.frame.journalCall g.runner? thread outset).run host w).1.1)
      ((g.frame.journalCall g.runner? thread outset).run host w).1.2 := by
  refine GraphFrame.run_journalCall (P := fun r =>
    g.frame.Travelled Q given start (journal ++ r.1) r.2) ?_ ?_ ?_
  · intro cause _
    rw [List.append_nil]
    exact .lost h cause
  · intro loaded r hloaded hended
    obtain ⟨c, rfl, hc⟩ := hrecalls loaded hloaded
    have hgoesOn := houtset c hc
    rw [hended] at hgoesOn
    cases hgoesOn
    rw [List.append_nil]
    exact h
  · intro loaded o hloaded hsets
    obtain ⟨c, rfl, hc⟩ := hrecalls loaded hloaded
    have hgoesOn := houtset c hc
    rw [hsets] at hgoesOn
    cases hgoesOn with
    | enters hinput =>
      refine (journal_obeys hruns _).mono (fun _ h => h) ?_
      rintro ⟨more, _⟩ ⟨ending, t, hwalked, rfl⟩
      exact .again h hinput hwalked

/-- **A journey is a chain of walks**, whatever the worlds are in which its calls are made. By
induction on the calls. -/
theorem Journey.travelled {start : Fields} {journal : List Station} {result : RunResult}
    (h : g.Journey thread host given start journal result) :
    g.frame.Travelled Q given start journal result := by
  induction h with
  | begun _ hload hcomplete => exact travelled_begun hruns hload hcomplete
  | again _ hrecalls hcall ih =>
    have hpending := ih.interrupt
    rcases hcall with ⟨input, hgiven, rfl⟩ | ⟨value, rfl⟩
    · refine travelled_again hruns ih hrecalls ?_
      rintro c rfl
      exact GraphFrame.runOutset_goesOn hgiven hpending
    · refine travelled_again hruns ih hrecalls ?_
      rintro c rfl
      exact GraphFrame.resumeOutset_goesOn thread value hpending

end Calls

end Graph

end WorkflowGraph
