import WorkflowGraph.Proofs.Activity.Course
import WorkflowGraph.Proofs.Graph.Isolation

/-!
# Pending suspensions

The latest checkpoint of a suspended thread says what the thread waits for. A run whose input does
not hold it says so again, and does nothing else; a run whose input holds it does what a resumed run
does in whose checkpoint the other fields of the input have been merged. Both are seen from the
thread alone, whether the suspension comes from a node of the graph or from a graph inside it
(`pending_suspension_is_stable`).
-/

set_option autoImplicit false

namespace WorkflowGraph

open Activity

/-- Whether an input that can be run has nothing to say of a field: an object without it, or
null. -/
def Value.Lacks (key : String) : Value → Prop
  | .object fields => Dict.get? fields key = none
  | .null => True
  | _ => False

/-! ## Worlds that hold a checkpoint -/

/-- Whether a call leaves a checkpoint the latest one of a thread, in whatever world it is
answered. -/
def Call.Spares (store : Store) (thread : String) (c : Checkpoint) (call : Call) : Prop :=
  ∀ {σ : Type} (host : Host σ) (w : World σ), store.load w.storage thread = .ok (some c) →
    store.load (call.answer host w).2.storage thread = .ok (some c)

/-- The regime whose calls leave a checkpoint the latest one of a thread. -/
def Activity.Regime.sparing (store : Store) (thread : String) (c : Checkpoint) : Regime Unit where
  allows _ call := call.Spares store thread c
  answers _ _ _ _ := True
  background call := call.Spares store thread c

namespace World

variable {σ : Type} {store : Store} {thread : String} {c : Checkpoint} {w : World σ}

/-- The world in which a thread has been loaded. -/
def loaded (store : Store) (thread : String) (host : Host σ) (w : World σ) : World σ :=
  if (Call.load store thread).isSlow then w.rest host else w

theorem loaded_of_idle (h : store = .memory ∨ w.crew.strands = []) (host : Host σ) :
    w.loaded store thread host = w := by
  unfold loaded
  rcases h with rfl | hidle
  · rfl
  · rw [w.rest_of_strands_eq_nil host hidle]
    exact ite_self w

/-- Whether a checkpoint is the latest one of a thread, and no task under way changes that. -/
structure Holds (store : Store) (thread : String) (c : Checkpoint) (w : World σ) : Prop where
  latest : store.load w.storage thread = .ok (some c)
  crew : ∀ t ∈ Crew.trees w.crew.strands,
    t.2.Obeys (Call.Spares store thread c) fun _ => True

theorem Holds.of_idle (h : store.load w.storage thread = .ok (some c))
    (hidle : w.crew.strands = []) : w.Holds store thread c := by
  refine ⟨h, ?_⟩
  rw [hidle]
  simp [Crew.trees]

/-- Where files are read, the tasks under way may go on before the answer comes. They leave the
checkpoint where it is. -/
theorem Holds.loaded (h : w.Holds store thread c) (host : Host σ) :
    (w.loaded store thread host).Holds store thread c := by
  have hR : (Regime.sparing store thread c).SeenThrough
      fun s _ => store.load s thread = .ok (some c) :=
    ⟨fun host w _ _ hview hc => ⟨(), trivial, hc host w hview⟩,
      fun host w _ _ hview hc => hc host w hview⟩
  have hshows : w.Shows (.sparing store thread c)
      (fun s _ => store.load s thread = .ok (some c)) () := ⟨h.latest, h.crew⟩
  have hafter := hshows.beforeAnswer host hR (.load store thread)
  exact ⟨hafter.view, hafter.crew⟩

end World

/-! ## What is done with a loaded checkpoint -/

namespace GraphFrame

variable {g : GraphFrame} {runner? : String → Option Runner} {store : Store} {thread : String}
  {c : Checkpoint} {pending : PendingInterrupt}

/-- What a run does once the latest checkpoint of its thread has been loaded. -/
def runLoaded (g : GraphFrame) (runner? : String → Option Runner) (input : Fields)
    (thread : String) : Except RunError (Option Checkpoint) → Activity RunResult
  | .error e => pure (.failed e .blank)
  | .ok none => g.walk runner? (.ofFields input) g.table.entry thread none
  | .ok (some c) =>
    match c.state.interrupt with
    | some pending =>
      match Dict.get? input pending.resumeKey with
      | none => pure (.suspended pending c.state)
      | some value =>
        g.resumeState runner? (c.state.mergeInput (Dict.drop input pending.resumeKey)) pending value
          thread
    | none =>
      match c.next with
      | some node => g.walk runner? (c.state.mergeInput input) node thread none
      | none =>
        g.walk runner? { c.state.mergeInput input with loopCounters := [] } g.table.entry thread
          none

/-- What is done to resume a thread once its latest checkpoint has been loaded. -/
def resumeLoaded (g : GraphFrame) (runner? : String → Option Runner) (thread : String)
    (value : Value) : Except RunError (Option Checkpoint) → Activity RunResult
  | .error e => pure (.failed e .blank)
  | .ok none => pure (.failed (.noPendingInterrupt thread) .blank)
  | .ok (some c) =>
    match c.state.interrupt with
    | none => pure (.failed (.noPendingInterrupt thread) c.state)
    | some pending => g.resumeState runner? c.state pending value thread

/-- Without the value that it waits for, a suspended thread is left as it is. -/
theorem runLoaded_of_lacks {input : Fields} (hpending : c.state.interrupt = some pending)
    (hlacks : Dict.get? input pending.resumeKey = none) :
    g.runLoaded runner? input thread (.ok (some c)) = pure (.suspended pending c.state) := by
  unfold runLoaded
  simp only [hpending, hlacks]

/-- A run with the value that a thread waits for resumes it with the other fields merged. -/
theorem runLoaded_of_holds {input : Fields} {value : Value}
    (hpending : c.state.interrupt = some pending)
    (hvalue : Dict.get? input pending.resumeKey = some value) :
    g.runLoaded runner? input thread (.ok (some c)) =
      g.resumeLoaded runner? thread value (.ok (some { c with
        state := c.state.mergeInput (Dict.drop input pending.resumeKey) })) := by
  have hmerged : (c.state.mergeInput (Dict.drop input pending.resumeKey)).interrupt =
      some pending := hpending
  unfold runLoaded resumeLoaded
  simp only [hpending, hvalue, hmerged]

/-- In a world that holds a checkpoint, it is this one that is loaded. -/
theorem run_load {σ α : Type} {w : World σ} (hstore : g.store = some store)
    (hw : w.Holds store thread c) (host : Host σ)
    (next : Except RunError (Option Checkpoint) → Activity α) :
    (g.load thread >>= next).run host w =
        (next (.ok (some c))).run host (w.loaded store thread host) ∧
      (g.load thread >>= next).events host w = (.load store thread, w.loaded store thread host) ::
        (next (.ok (some c))).events host (w.loaded store thread host) := by
  have hlatest := (hw.loaded host).latest
  have hload : g.load thread = .ask (.load store thread) fun answer =>
      pure (answer.mapError RunError.checkpoint) := by
    unfold load
    rw [hstore]
    rfl
  rw [hload]
  show (next ((store.load (w.loaded store thread host).storage thread).mapError
      RunError.checkpoint)).run host (w.loaded store thread host) = _ ∧
    (Call.load store thread, w.loaded store thread host) ::
      (next ((store.load (w.loaded store thread host).storage thread).mapError
        RunError.checkpoint)).events host (w.loaded store thread host) = _
  rw [hlatest]
  exact ⟨rfl, rfl⟩

end GraphFrame

/-! ## Runs of suspended threads -/

namespace Graph

variable {σ : Type} {g : Graph} {store : Store} {thread : String} {c : Checkpoint}
  {pending : PendingInterrupt} {w : World σ}

/-- A run whose input lacks the value that its thread waits for loads the thread and does nothing
else. -/
theorem run_of_lacks (hstore : g.frame.store = some store) (hw : w.Holds store thread c)
    (hpending : c.state.interrupt = some pending) {input : Value}
    (hlacks : input.Lacks pending.resumeKey) (host : Host σ) :
    (g.run input thread).run host w =
        (.suspended pending c.state, w.loaded store thread host) ∧
      (g.run input thread).events host w =
        [(.load store thread, w.loaded store thread host)] := by
  have hfields {fields : Fields} (h : Dict.get? fields pending.resumeKey = none) :
      (g.frame.runThread g.runner? fields thread).run host w =
          (.suspended pending c.state, w.loaded store thread host) ∧
        (g.frame.runThread g.runner? fields thread).events host w =
          [(.load store thread, w.loaded store thread host)] := by
    obtain ⟨hrun, hevents⟩ :=
      GraphFrame.run_load hstore hw host (g.frame.runLoaded g.runner? fields thread)
    rw [GraphFrame.runLoaded_of_lacks hpending h] at hrun hevents
    exact ⟨hrun, hevents⟩
  cases input with
  | object fields => exact hfields hlacks
  | null => exact hfields rfl
  | _ => exact hlacks.elim

/-- Runs whose inputs lack the value leave the thread as it is, however many there are. By induction
on the inputs: the checkpoint is held on after every one of them. -/
theorem session_of_lacks (hstore : g.frame.store = some store) (hw : w.Holds store thread c)
    (hpending : c.state.interrupt = some pending) {inputs : List Value}
    (hlacks : ∀ input ∈ inputs, input.Lacks pending.resumeKey) (host : Host σ) :
    ((g.session thread (inputs.map .run)).run host w).1 =
        inputs.map (fun _ => .ended (.suspended pending c.state)) ∧
      (∀ e ∈ (g.session thread (inputs.map .run)).events host w, e.1 = .load store thread) ∧
      ((g.session thread (inputs.map .run)).run host w).2.Holds store thread c ∧
      (store = .memory ∨ w.crew.strands = [] →
        ((g.session thread (inputs.map .run)).run host w).2 = w) := by
  induction inputs generalizing w with
  | nil =>
    refine ⟨rfl, ?_, hw, fun _ => rfl⟩
    rintro e ⟨⟩
  | cons input rest ih =>
    have hfirst : input.Lacks pending.resumeKey := hlacks input List.mem_cons_self
    obtain ⟨hrun, hevents⟩ := run_of_lacks (g := g) hstore hw hpending hfirst host
    obtain ⟨hreplies, hloads, hholds, hsame⟩ :=
      ih (hw.loaded host) fun other hother => hlacks other (List.mem_cons_of_mem _ hother)
    have hserve : (g.serve thread (.run input)).run host w =
        (.ended (.suspended pending c.state), w.loaded store thread host) := by
      show ((g.run input thread).bind fun r => pure (Reply.ended r)).run host w = _
      rw [run_bind, hrun]
      rfl
    have hserved : (g.serve thread (.run input)).events host w =
        [(.load store thread, w.loaded store thread host)] := by
      show (g.run input thread >>= fun r => pure (Reply.ended r)).events host w = _
      rw [events_bind, hevents]
      rfl
    have hsession : (g.session thread (.run input :: rest.map .run)).run host w =
        (.ended (.suspended pending c.state) ::
            ((g.session thread (rest.map .run)).run host (w.loaded store thread host)).1,
          ((g.session thread (rest.map .run)).run host (w.loaded store thread host)).2) := by
      show ((g.serve thread (.run input)).bind fun reply =>
        (g.session thread (rest.map .run)).bind fun replies =>
          pure (reply :: replies)).run host w = _
      rw [run_bind, hserve, run_bind]
      rfl
    have hhappened : (g.session thread (.run input :: rest.map .run)).events host w =
        (.load store thread, w.loaded store thread host) ::
          (g.session thread (rest.map .run)).events host (w.loaded store thread host) := by
      show (g.serve thread (.run input) >>= fun reply =>
        g.session thread (rest.map .run) >>= fun replies =>
          pure (reply :: replies)).events host w = _
      rw [events_bind, hserved, hserve, events_bind]
      exact congrArg (List.cons _) (List.append_nil _)
    rw [List.map_cons, List.map_cons, hsession, hhappened]
    refine ⟨by rw [hreplies], List.forall_mem_cons.2 ⟨rfl, hloads⟩, hholds, fun hidle => ?_⟩
    have hloaded : w.loaded store thread host = w := World.loaded_of_idle hidle host
    rw [hloaded] at hsame ⊢
    exact hsame hidle

/-- What a run with the value that its thread waits for does once the thread is loaded, a resumed
run does where the other fields have been merged. -/
theorem run_of_holds (g : Graph) (thread : String) (hstore : g.frame.store = some store)
    (hpending : c.state.interrupt = some pending) {fields : Fields} {value : Value}
    (hvalue : Dict.get? fields pending.resumeKey = some value) :
    ∃ onward : Activity RunResult,
      (∀ (host : Host σ) (u : World σ), u.Holds store thread c →
        (g.run (.object fields) thread).run host u =
            onward.run host (u.loaded store thread host) ∧
          (g.run (.object fields) thread).events host u =
            (.load store thread, u.loaded store thread host) ::
              onward.events host (u.loaded store thread host)) ∧
      ∀ (host : Host σ) (u : World σ), u.Holds store thread { c with
          state := c.state.mergeInput (Dict.drop fields pending.resumeKey) } →
        (g.resume thread value).run host u = onward.run host (u.loaded store thread host) ∧
          (g.resume thread value).events host u =
            (.load store thread, u.loaded store thread host) ::
              onward.events host (u.loaded store thread host) := by
  refine ⟨g.frame.runLoaded g.runner? fields thread (.ok (some c)), fun host u hu => ?_,
    fun host u hu => ?_⟩
  · exact GraphFrame.run_load hstore hu host (g.frame.runLoaded g.runner? fields thread)
  · rw [GraphFrame.runLoaded_of_holds hpending hvalue]
    exact GraphFrame.run_load hstore hu host (g.frame.resumeLoaded g.runner? thread value)

end Graph

/-- **A pending suspension is stable, and both ways to resume it agree.** Take a graph with a store
and a world in which the latest checkpoint of a thread waits for a value, be it for a node of the
graph or for a graph inside it, and no task under way changes that. However many runs there are
whose inputs lack the value, every one of them gives the suspension again, with the state that has
been saved. Loading the thread is all that they do, and the world is the same after them if nothing
has been under way or the store is in memory. A run with the value does, once the thread is loaded,
the very activity that a resumed run does where the other fields of the input have been merged into
the state of the checkpoint. A run with nothing but the value cannot be told from a resumed run. -/
theorem pending_suspension_is_stable {σ : Type} (g : Graph) {store : Store}
    (hstore : g.frame.store = some store) {thread : String} {c : Checkpoint}
    {pending : PendingInterrupt} (hpending : c.state.interrupt = some pending) (host : Host σ)
    {w : World σ} (hw : w.Holds store thread c) :
    (∀ inputs : List Value, (∀ input ∈ inputs, input.Lacks pending.resumeKey) →
      ((g.session thread (inputs.map .run)).run host w).1 =
          inputs.map (fun _ => .ended (.suspended pending c.state)) ∧
        (∀ e ∈ (g.session thread (inputs.map .run)).events host w, e.1 = .load store thread) ∧
        ((g.session thread (inputs.map .run)).run host w).2.Holds store thread c ∧
        (store = .memory ∨ w.crew.strands = [] →
          ((g.session thread (inputs.map .run)).run host w).2 = w)) ∧
    (∀ (fields : Fields) (value : Value), Dict.get? fields pending.resumeKey = some value →
      ∃ onward : Activity RunResult,
        (∀ (host : Host σ) (u : World σ), u.Holds store thread c →
          (g.run (.object fields) thread).run host u =
              onward.run host (u.loaded store thread host) ∧
            (g.run (.object fields) thread).events host u =
              (.load store thread, u.loaded store thread host) ::
                onward.events host (u.loaded store thread host)) ∧
        ∀ (host : Host σ) (u : World σ), u.Holds store thread { c with
            state := c.state.mergeInput (Dict.drop fields pending.resumeKey) } →
          (g.resume thread value).run host u = onward.run host (u.loaded store thread host) ∧
            (g.resume thread value).events host u =
              (.load store thread, u.loaded store thread host) ::
                onward.events host (u.loaded store thread host)) ∧
    ∀ value : Value,
      (g.run (.object [(pending.resumeKey, value)]) thread).run host w =
          (g.resume thread value).run host w ∧
        (g.run (.object [(pending.resumeKey, value)]) thread).events host w =
          (g.resume thread value).events host w := by
  refine ⟨fun inputs hlacks => Graph.session_of_lacks hstore hw hpending hlacks host,
    fun fields value hvalue => Graph.run_of_holds g thread hstore hpending hvalue,
    fun value => ?_⟩
  have hvalue : Dict.get? [(pending.resumeKey, value)] pending.resumeKey = some value := by
    rw [Dict.get?_cons, if_pos rfl]
  have hdrop : Dict.drop [(pending.resumeKey, value)] pending.resumeKey = [] := by
    unfold Dict.drop
    rw [if_pos rfl]
  obtain ⟨onward, hrun, hresume⟩ := Graph.run_of_holds g thread hstore hpending hvalue
  rw [hdrop] at hresume
  obtain ⟨hrun, hruns⟩ := hrun host w hw
  obtain ⟨hresume, hresumes⟩ := hresume host w hw
  exact ⟨hrun.trans hresume.symm, hruns.trans hresumes.symm⟩

/-- The graph that has asked from inside a subgraph asks again, without a trace of what else it is
told, and takes the answer from a run as from a resumed run. -/
theorem askedWorld_is_stable :
    ∃ c, askedWorld.Holds .memory "t" c ∧
      c.state.interrupt = some ⟨"sub", "user_input", .text "Name?", true⟩ ∧
      (askGraph.session "t" [.run (.object [("result", .text "guess")]), .run .null]).run
          downHost askedWorld =
        ([.ended (.suspended ⟨"sub", "user_input", .text "Name?", true⟩ c.state),
          .ended (.suspended ⟨"sub", "user_input", .text "Name?", true⟩ c.state)], askedWorld) ∧
      (askGraph.run (.object [("user_input", .text "Ada")]) "t").run downHost askedWorld =
        (askGraph.resume "t" (.text "Ada")).run downHost askedWorld := by
  have hlatest : ∃ c, Store.memory.load askedWorld.storage "t" = .ok (some c) ∧
      c.state.interrupt = some ⟨"sub", "user_input", .text "Name?", true⟩ :=
    ⟨_, by with_unfolding_all rfl, by with_unfolding_all rfl⟩
  obtain ⟨c, hload, hpending⟩ := hlatest
  have hidle : askedWorld.crew.strands = [] := by with_unfolding_all rfl
  have hholds : askedWorld.Holds .memory "t" c := .of_idle hload hidle
  obtain ⟨hlacking, _, halone⟩ := pending_suspension_is_stable askGraph rfl hpending downHost hholds
  have hlacks : ∀ input ∈ [Value.object [("result", .text "guess")], .null],
      input.Lacks "user_input" := by
    intro input hinput
    simp only [List.mem_cons, List.not_mem_nil, or_false] at hinput
    rcases hinput with rfl | rfl
    · show Dict.get? [("result", Value.text "guess")] "user_input" = none
      rw [Dict.get?_cons, if_neg (by decide)]
      rfl
    · trivial
  obtain ⟨hreplies, _, _, hsame⟩ := hlacking _ hlacks
  exact ⟨c, hholds, hpending, Prod.ext hreplies (hsame (.inl rfl)), (halone (.text "Ada")).1⟩

end WorkflowGraph
