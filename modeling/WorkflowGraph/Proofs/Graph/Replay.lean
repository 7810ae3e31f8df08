import WorkflowGraph.Proofs.Graph.Coherence
import WorkflowGraph.Proofs.Graph.Journal

/-!
# Replaying journals

A walk changes the fields of its state by the updates of the nodes that have come to an outcome, and
by nothing else. To replay a journal is to apply these updates in their order; from the fields that
a walk has started with, this leads to the fields that it stops with, whatever it stops for
(`GraphFrame.Walked.replays`). A node that fails or is cut off is the last one of its walk, and
leaves no trace in the fields. So a walk that fails hands on the last good state, with one record
of what has ended it behind all others (`failed_walk_keeps_last_good_state`).
-/

set_option autoImplicit false

namespace WorkflowGraph

open Activity

/-- The outcome that a node has come to, if it has. -/
def Station.outcome? (e : Station) : Option NodeOutcome :=
  match e.fate with
  | .ran r => r.result.toOption
  | _ => none

/-- The errors that a node has handed on. -/
def Station.errors (e : Station) : List ErrorRecord :=
  match e.fate with
  | .ran r => r.errors
  | _ => []

/-- Fields after the updates of a journal, in their order. -/
def replay (shape : StateShape) (fields : Fields) (journal : List Station) : Fields :=
  (journal.filterMap Station.outcome?).foldl
    (fun fields outcome => fields.apply shape outcome.update) fields

theorem replay_append (shape : StateShape) (fields : Fields) (journal more : List Station) :
    replay shape fields (journal ++ more) = replay shape (replay shape fields journal) more := by
  unfold replay
  rw [List.filterMap_append, List.foldl_append]

/-- How a journal accounts for what has become of a state: the fields are those of its updates, and
the errors those of its nodes. This holds where each node is entered, too, and a node without an
outcome is the last one, which an error follows. -/
structure Replays (shape : StateShape) (Q : String → State → Option Value → NodeRun → Prop)
    (s : State) (journal : List Station) (error? : Option RunError) (t : State) : Prop where
  values : t.values = replay shape s.values journal
  errors : t.errors = s.errors ++ journal.flatMap Station.errors
  entered : ∀ front e back, journal = front ++ e :: back →
    e.state.values = replay shape s.values front ∧
      e.state.errors = s.errors ++ front.flatMap Station.errors
  ran : ∀ e ∈ journal, ∀ r, e.fate = .ran r → Q e.node e.state e.resume r
  last : ∀ front e back, journal = front ++ e :: back → e.outcome? = none →
    back = [] ∧ error?.isSome = true

namespace Replays

variable {shape : StateShape} {Q : String → State → Option Value → NodeRun → Prop}
  {s t u : State} {journal more : List Station} {error? : Option RunError}

theorem nil (s : State) (error? : Option RunError) : Replays shape Q s [] error? s where
  values := rfl
  errors := (List.append_nil _).symm
  entered front e back h := by simp at h
  ran e he := by cases he
  last front e back h := by simp at h

theorem single {e : Station} (hstate : e.state.values = s.values ∧ e.state.errors = s.errors)
    (hvalues : t.values = replay shape s.values [e]) (herrors : t.errors = s.errors ++ e.errors)
    (hran : ∀ r, e.fate = .ran r → Q e.node e.state e.resume r)
    (hlast : e.outcome? = none → error?.isSome = true) : Replays shape Q s [e] error? t where
  values := hvalues
  errors := by rw [List.flatMap_singleton, herrors]
  entered front other back h := by
    obtain ⟨rfl, hback⟩ | ⟨_, _, hback⟩ := List.cons_eq_append_iff.1 h
    · cases hback
      exact ⟨hstate.1, hstate.2.trans (List.append_nil _).symm⟩
    · simp at hback
  ran := List.forall_mem_singleton.2 hran
  last front other back h := by
    obtain ⟨rfl, hback⟩ | ⟨_, _, hback⟩ := List.cons_eq_append_iff.1 h
    · cases hback
      exact fun hnone => ⟨rfl, hlast hnone⟩
    · simp at hback

theorem append (h : Replays shape Q s journal none t) (h' : Replays shape Q t more error? u) :
    Replays shape Q s (journal ++ more) error? u where
  values := by rw [h'.values, h.values, replay_append]
  errors := by rw [h'.errors, h.errors, List.flatMap_append, List.append_assoc]
  entered front e back heq := by
    rcases exists_of_append_eq heq with ⟨rest, hjournal, -⟩ | ⟨rest, rfl, hmore⟩
    · exact h.entered front e rest hjournal
    · obtain ⟨hvalues, herrors⟩ := h'.entered rest e back hmore
      rw [hvalues, herrors, h.values, h.errors, replay_append, List.flatMap_append,
        List.append_assoc]
      exact ⟨rfl, rfl⟩
  ran := List.forall_mem_append.2 ⟨h.ran, h'.ran⟩
  last front e back heq hnone := by
    rcases exists_of_append_eq heq with ⟨rest, hjournal, -⟩ | ⟨rest, -, hmore⟩
    · exact absurd (h.last front e rest hjournal hnone).2 Bool.false_ne_true
    · exact h'.last rest e back hmore hnone

/-- In a journal that no error follows, every node has come to an outcome. -/
theorem exists_outcome (h : Replays shape Q s journal none t) {e : Station} (he : e ∈ journal) :
    ∃ outcome, e.outcome? = some outcome := by
  obtain ⟨front, back, heq⟩ := List.append_of_mem he
  cases houtcome : e.outcome? with
  | none => exact absurd (h.last front e back heq houtcome).2 Bool.false_ne_true
  | some outcome => exact ⟨outcome, rfl⟩

end Replays

/-! ## What walks leave -/

namespace GraphFrame

variable {g : GraphFrame} {Q : String → State → Option Value → NodeRun → Prop} {s t : State}
  {node : String} {resume : Option Value}

/-- A visit changes the counters only. -/
theorem fields_of_visit {result : Except RunError Unit}
    (h : g.visit s node resume = (result, t)) : t.values = s.values ∧ t.errors = s.errors := by
  unfold visit at h
  split at h
  · dsimp only at h
    split at h <;> cases h <;> exact ⟨rfl, rfl⟩
  · cases h
    exact ⟨rfl, rfl⟩

/-- The update of an outcome is merged, whatever follows. -/
theorem Settled.applies {outcome : NodeOutcome} {onward : Onward}
    (h : g.Settled node s outcome onward t) :
    t.values = s.values.apply g.shape outcome.update ∧ t.errors = s.errors := by
  cases h <;> exact ⟨rfl, rfl⟩

theorem Passes.replays {noted : List Station} {onward : Onward}
    (h : g.Passes Q s node resume noted onward t) :
    Replays g.shape Q s noted onward.error? t := by
  cases h with
  | unknown => exact .nil s _
  | refused hvisit =>
    have hsame := fields_of_visit hvisit
    exact .single hsame hsame.1 (hsame.2.trans (List.append_nil _).symm) (by rintro _ ⟨⟩)
      fun _ => rfl
  | cut after hvisit =>
    have hsame := fields_of_visit hvisit
    exact .single hsame hsame.1 (hsame.2.trans (List.append_nil _).symm) (by rintro _ ⟨⟩)
      fun _ => rfl
  | @failed t r e hvisit hr he =>
    have hsame := fields_of_visit hvisit
    refine .single hsame ?_ (congrArg (· ++ r.errors) hsame.2) (by rintro _ ⟨⟩; exact hr)
      fun _ => rfl
    simp [replay, Station.outcome?, he, Except.toOption, hsame.1, afterRun]
  | @settled t u r outcome onward hvisit hr houtcome h =>
    have hsame := fields_of_visit hvisit
    obtain ⟨hvalues, herrors⟩ := h.applies
    refine .single hsame ?_ (herrors.trans (congrArg (· ++ r.errors) hsame.2))
      (by rintro _ ⟨⟩; exact hr) fun hnone => ?_
    · simp [replay, Station.outcome?, houtcome, Except.toOption, hvalues, hsame.1, afterRun]
    · simp [Station.outcome?, houtcome, Except.toOption] at hnone

/-- **A journal accounts for its walk.** By induction on the steps. -/
theorem Walked.replays {journal : List Station} {ending : WalkEnd}
    (h : g.Walked Q s node resume journal ending t) :
    Replays g.shape Q s journal ending.error? t := by
  induction h with
  | spent => exact .nil _ _
  | stop h => exact h.replays
  | go h _ ih => exact h.replays.append ih

/-! ## Walks that fail -/

/-- What a walk hands on that has failed: the fields after the updates of its journal, and behind
the errors of its nodes, after which it has gone on, a single one that has ended it, in the name of
its node, or of the graph where it has none. Each node has been given what the journal before it
comes to, and after one without an outcome no further one is entered. -/
structure LastGood (g : GraphFrame) (s : State) (journal : List Station) (e : RunError)
    (t : State) : Prop where
  values : t.values = replay g.shape s.values journal
  errors : t.errors = s.errors ++ journal.flatMap Station.errors ++
    [⟨e.node?.getD g.name, e.message, t.step, true⟩]
  recovered : ∀ x ∈ journal.flatMap Station.errors, x.fatal = false
  entered : ∀ front x back, journal = front ++ x :: back →
    x.state.values = replay g.shape s.values front ∧
      x.state.errors = s.errors ++ front.flatMap Station.errors ∧ (x.outcome? = none → back = [])

theorem Walked.lastGood {journal : List Station} {ending : WalkEnd} {u : State} {e : RunError}
    (h : g.Walked (fun _ _ _ => NodeRun.Unfailed) s node resume journal ending t)
    (hfailed : g.conclude (ending, t) = .failed e u) : g.LastGood s journal e u := by
  have hreplays := h.replays
  cases ending with
  | complete => cases hfailed
  | suspended pending => cases hfailed
  | failed e =>
    cases hfailed
    refine ⟨hreplays.values, congrArg (· ++ _) hreplays.errors, fun x hx => ?_,
      fun front x back heq => ?_⟩
    · obtain ⟨entry, hentry, hx⟩ := List.mem_flatMap.1 hx
      unfold Station.errors at hx
      split at hx
      · next r hr => exact hreplays.ran entry hentry r hr x hx
      · cases hx
    · obtain ⟨hvalues, herrors⟩ := hreplays.entered front x back heq
      exact ⟨hvalues, herrors, fun hnone => (hreplays.last front x back heq hnone).1⟩

end GraphFrame

/-- **A walk that fails hands on the last good state**, for whatever reason it fails and wherever it
stands. Its fields are those that the walk has started with, after the updates of the nodes that have
come to an outcome, in their order and nothing else. Its errors are those that it has started with,
those that its nodes have gone on after, and a last one, which alone has ended the run. This holds
whatever executors, tools and stores answer, and so in every world in which no task is under way, or
none that hands on an error that has ended a run. -/
theorem failed_walk_keeps_last_good_state (g : Graph) (s : State) (start thread : String)
    (resume : Option Value) :
    ((g.frame.journal g.runner? s start thread resume).Yields NodeRun.Unfailed fun r =>
      ∀ e t, r.2 = .failed e t → g.frame.LastGood s r.1 e t) ∧
    ∀ (σ : Type) (host : Host σ) (w : World σ), w.Yields NodeRun.Unfailed →
      ((g.frame.walk g.runner? s start thread resume).run host w).2.Yields NodeRun.Unfailed ∧
      ∀ e t, ((g.frame.walk g.runner? s start thread resume).run host w).1 = .failed e t →
        ∃ journal, ((g.frame.journal g.runner? s start thread resume).run host w).1 =
          (journal, .failed e t) ∧ g.frame.LastGood s journal e t := by
  have hruns : ∀ id runner, g.runner? id = some runner → ∀ s scope resume,
      (runner s scope resume).Yields NodeRun.Unfailed NodeRun.Unfailed := by
    intro id runner hrunner s scope resume
    obtain ⟨node, _, rfl⟩ := GraphNode.exists_of_runnerIn? hrunner
    exact node.runner_unfailed s scope resume
  have hjournal : (g.frame.journal g.runner? s start thread resume).Yields NodeRun.Unfailed fun r =>
      ∀ e t, r.2 = .failed e t → g.frame.LastGood s r.1 e t := by
    refine (GraphFrame.journal_yields hruns s start thread resume).mono ?_
    rintro ⟨journal, _⟩ ⟨ending, t, hwalked, rfl⟩ e u hfailed
    exact hwalked.lastGood hfailed
  refine ⟨hjournal, fun σ host w hw => ?_⟩
  obtain ⟨hpost, hafter⟩ := hjournal.run host hw
  rw [GraphFrame.walk_eq_journal]
  show ((Activity.bind _ _).run host w).2.Yields _ ∧
    ∀ e t, ((Activity.bind _ _).run host w).1 = _ → _
  rw [run_bind]
  refine ⟨hafter, fun e t hfailed => ?_⟩
  have hresult : ((g.frame.journal g.runner? s start thread resume).run host w).1.2 =
      .failed e t := hfailed
  exact ⟨_, Prod.ext rfl hresult, hpost e t hresult⟩

/-- A note is made, and two tasks are called, of which the first one may fail. -/
def errand : Definition where
  version := none
  name := "errand"
  description := none
  entry := none
  defaults := .standard
  tools := []
  nodes := [⟨"note", .passthrough ⟨[("noted", .bool true)], [], []⟩, .unset⟩,
    ⟨"ask", .transform ⟨some "ask", none, [], []⟩,
      { NodeOptions.unset with output := some "way", onError := .skip }⟩,
    ⟨"go", .transform ⟨some "go", none, [], []⟩,
      { NodeOptions.unset with output := some "there" }⟩]
  edges := [⟨"note", .one "ask", none⟩, ⟨"ask", .one "go", none⟩, ⟨"go", .one "END", none⟩]
  loopLimits := []
  checkpoint := none

/-- The graph that it is compiled to. -/
def errandGraph : Graph where
  frame :=
    { name := "errand"
      table := ⟨"note", [("ask", .direct (.node "go")), ("go", .direct .finish),
        ("note", .direct (.node "ask"))], [], []⟩
      shape := ⟨[("noted", ⟨.any, .overwrite, ["note"], .output⟩),
        ("there", ⟨.any, .overwrite, ["go"], .output⟩),
        ("way", ⟨.any, .overwrite, ["ask"], .output⟩)]⟩
      config := .standard
      store := none }
  nodes := [("note", .leaf ⟨"note", none, ⟨.fail, none, none, ["noted"], []⟩⟩
      (.passthrough ⟨[("noted", .bool true)], [], []⟩)),
    ("ask", .leaf ⟨"ask", some "way", ⟨.skip, none, none, ["way"], []⟩⟩
      (.transform ⟨.task ⟨"ask", ⟨"only", none⟩, none⟩, [], [], "way", none⟩)),
    ("go", .leaf ⟨"go", some "there", ⟨.fail, none, none, ["there"], []⟩⟩
      (.transform ⟨.task ⟨"go", ⟨"only", none⟩, none⟩, [], [], "there", none⟩))]

/-- Where the executor is down, the note stays, and of the two failures only the last one has ended
the run. -/
theorem errand_keeps_its_note :
    oneExecutor.assemble none 1 .empty errand = .ok errandGraph ∧
      ∃ journal e t,
        ((errandGraph.frame.walk errandGraph.runner? .blank "note" "t" none).run downHost
          (.initial () .empty)).1 = .failed e t ∧
        errandGraph.frame.LastGood .blank journal e t ∧
        t.values = [("noted", .bool true)] ∧
        t.errors.map (fun x => (x.node, x.fatal)) = [("ask", false), ("go", true)] := by
  have hfailed : ∃ e t,
      ((errandGraph.frame.walk errandGraph.runner? .blank "note" "t" none).run downHost
        (.initial () .empty)).1 = .failed e t ∧ t.values = [("noted", .bool true)] ∧
      t.errors.map (fun x => (x.node, x.fatal)) = [("ask", false), ("go", true)] := by
    refine ⟨_, _, by with_unfolding_all rfl, by with_unfolding_all rfl, by with_unfolding_all rfl⟩
  obtain ⟨e, t, hwalk, hvalues, herrors⟩ := hfailed
  obtain ⟨_, hruns⟩ := failed_walk_keeps_last_good_state errandGraph .blank "note" "t" none
  obtain ⟨_, hfails⟩ := hruns Unit downHost (.initial () .empty) (World.Yields.of_idle rfl)
  obtain ⟨journal, _, hgood⟩ := hfails e t hwalk
  exact ⟨by with_unfolding_all rfl, journal, e, t, hwalk, hgood, hvalues, herrors⟩

end WorkflowGraph
