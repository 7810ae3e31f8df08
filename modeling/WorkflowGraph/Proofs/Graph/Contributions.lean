import WorkflowGraph.Proofs.Graph.Coherence
import WorkflowGraph.Proofs.Graph.Journey
import WorkflowGraph.Proofs.Graph.Replay
import WorkflowGraph.Proofs.Shape.ReadBack

/-!
# Contributions to fields that accumulate

Over a whole run with all its suspensions, a field that is merged by `append` gathers what the nodes
write to it, in the order in which they are entered, and nothing else (`Gathers`). A node that
declares the field writes to it whenever it is executed (`Definition.Contributes`). But a node is
not executed where its outputs are there already, and the field itself is one of them: of two nodes
whose only output it is, the second one is skipped. So what is gathered is what the nodes
contribute that are not skipped (`unskipped_writers_contribute`).
-/

set_option autoImplicit false

namespace WorkflowGraph

open Activity

/-- The values that a node has written to a field. -/
def Station.written (field : String) (e : Station) : List Value :=
  e.outcome?.toList.flatMap fun outcome => outcome.update.valuesOf field

/-! ## What a run gathers -/

theorem get?_replay {shape : StateShape} {field : String} (hmerge : shape.merge field = .append)
    (fields : Fields) (journal : List Station) :
    Dict.get? (replay shape fields journal) field =
      accumulated (Dict.get? fields field) (journal.flatMap (Station.written field)) := by
  induction journal generalizing fields with
  | nil => rfl
  | cons e rest ih =>
    rw [← List.singleton_append, replay_append, ih, List.flatMap_append, ← accumulated_append,
      List.flatMap_singleton]
    congr 1
    unfold replay Station.written
    cases houtcome : e.outcome? with
    | none => simp [houtcome, accumulated]
    | some outcome => simp [houtcome, Fields.get?_apply_of_append hmerge]

/-- How a field changes over a journal: it gathers what is written to it, so that each node is given
what has been gathered before it. Every node has come to an outcome, and its execution is one of
`Q`. -/
structure Gathers (field : String) (Q : String → State → Option Value → NodeRun → Prop)
    (old : Option Value) (journal : List Station) (new : Option Value) : Prop where
  final : new = accumulated old (journal.flatMap (Station.written field))
  entered : ∀ front e back, journal = front ++ e :: back →
    Dict.get? e.state.values field = accumulated old (front.flatMap (Station.written field)) ∧
      ∃ r outcome, e.fate = .ran r ∧ r.result = .ok outcome ∧ Q e.node e.state e.resume r

section Gathering

variable {field : String} {Q : String → State → Option Value → NodeRun → Prop}
  {journal more : List Station}

theorem Gathers.append {old mid new : Option Value} (h : Gathers field Q old journal mid)
    (h' : Gathers field Q mid more new) : Gathers field Q old (journal ++ more) new where
  final := by rw [h'.final, h.final, accumulated_append, List.flatMap_append]
  entered front e back heq := by
    rcases exists_of_append_eq heq with ⟨rest, hjournal, -⟩ | ⟨rest, rfl, hmore⟩
    · exact h.entered front e rest hjournal
    · obtain ⟨hvalue, hran⟩ := h'.entered rest e back hmore
      rw [hvalue, h.final, accumulated_append, List.flatMap_append]
      exact ⟨rfl, hran⟩

theorem Replays.gathers {shape : StateShape} (hmerge : shape.merge field = .append) {s t : State}
    (h : Replays shape Q s journal none t) :
    Gathers field Q (Dict.get? s.values field) journal (Dict.get? t.values field) where
  final := by rw [h.values, get?_replay hmerge]
  entered front e back heq := by
    refine ⟨by rw [(h.entered front e back heq).1, get?_replay hmerge], ?_⟩
    have hmem : e ∈ journal := by
      rw [heq]
      exact List.mem_append_right _ List.mem_cons_self
    obtain ⟨outcome, houtcome⟩ := h.exists_outcome hmem
    unfold Station.outcome? at houtcome
    split at houtcome
    · next r hr =>
      refine ⟨r, outcome, hr, ?_, h.ran e hmem r hr⟩
      cases hresult : r.result with
      | error e =>
        rw [hresult] at houtcome
        cases houtcome
      | ok other =>
        rw [hresult] at houtcome
        cases houtcome
        rfl
    · cases houtcome

namespace GraphFrame

variable {g : GraphFrame} {given : Fields → Prop}

theorem Walked.gathers (hmerge : g.shape.merge field = .append) {s t : State} {node : String}
    {resume : Option Value} {ending : WalkEnd} (h : g.Walked Q s node resume journal ending t)
    (hends : (g.conclude (ending, t)).error? = none) :
    Gathers field Q (Dict.get? s.values field) journal
      (Dict.get? (g.conclude (ending, t)).state.values field) := by
  have hreplays := h.replays
  cases ending with
  | complete => exact hreplays.gathers hmerge
  | suspended pending => exact hreplays.gathers hmerge
  | failed e => cases hends

/-- A run gathers what its walks gather, as long as no input brings the field. By induction on the
walks. -/
theorem Travelled.gathers (hmerge : g.shape.merge field = .append)
    (hgiven : Unbrought given field) {start : Fields} {result : RunResult}
    (h : g.Travelled Q given start journal result) (hends : result.error? = none) :
    Gathers field Q (Dict.get? start field) journal (Dict.get? result.state.values field) := by
  induction h with
  | begun _ hwalk => exact hwalk.gathers hmerge hends
  | @again _ input _ _ _ s _ _ _ _ hinput hwalk ih =>
    have hmore : Gathers field Q (Dict.get? (Dict.merge s.values input) field) _ _ :=
      hwalk.gathers hmerge hends
    rw [Dict.get?_merge_of_eq_none (hinput field hgiven)] at hmore
    exact (ih rfl).append hmore
  | lost => cases hends

end GraphFrame

end Gathering

/-! ## What a node contributes -/

/-- What a node of a definition contributes to a field where it is entered. It is skipped if and only
if it is entered afresh and has outputs, all of which are there, and then it contributes nothing. It
contributes only to fields that it declares; and to these it contributes whenever it is entered
afresh, not skipped, and executed without an error, unless that is for the graph inside it to do. -/
structure Definition.Contributes (d : Definition) (n : NodeDecl) (field : String) (e : Station)
    (r : NodeRun) : Prop where
  skips : r.skipped = true ↔ e.resume = none ∧ Compiler.settledFields n ≠ [] ∧
    ∀ output ∈ Compiler.settledFields n, NodeFrame.isSet e.state output = true
  silent : r.skipped = true → e.written field = []
  declared : e.written field ≠ [] → d.Declares n field .append
  contributes : d.Declares n field .append → (∀ spec, n.kind ≠ .subgraph spec) →
    e.resume = none → r.skipped = false → r.errors = [] → e.written field ≠ []

section Contributing

variable {c : Compiler} {inner : Compiler.Inner} {store : Option Store} {stack : SourceStack}
  {d : Definition} {g : Graph} {field : String}

theorem Station.written_eq {e : Station} {r : NodeRun} {outcome : NodeOutcome}
    (hfate : e.fate = .ran r) (hresult : r.result = .ok outcome) (field : String) :
    e.written field = outcome.update.valuesOf field := by
  unfold written outcome?
  rw [hfate]
  simp [hresult, Except.toOption]

/-- What a node contributes follows from what its execution may come to. -/
theorem Compiler.Linked.contributes (h : Linked c inner store stack d g)
    (hacyclic : g.frame.table.cycles = []) (hdefault : d.defaults.skipIfExists = true)
    (hoptions : ∀ n ∈ d.nodes, n.options.skipIfExists ≠ some false)
    (happend : g.frame.shape.merge field = .append) {e : Station} {r : NodeRun}
    {outcome : NodeOutcome} (hfate : e.fate = .ran r) (hresult : r.result = .ok outcome)
    {made : GraphNode} (hmade : GraphNode.lookup? g.nodes e.node = some made)
    (hr : made.frame.Comes e.state e.resume (made.Tells e.resume) r) :
    ∃ n ∈ d.nodes, n.id = e.node ∧ d.Contributes n field e r := by
  obtain ⟨n, hn, hid, hnode, hfields⟩ := h.skipFields_of_lookup? hacyclic hdefault hoptions hmade
  have hwritten := Station.written_eq hfate hresult field
  have hsettled : e.resume = none ∧ made.frame.isSettled e.state = true ↔
      e.resume = none ∧ settledFields n ≠ [] ∧
        ∀ output ∈ settledFields n, NodeFrame.isSet e.state output = true := by
    rw [NodeFrame.isSettled_iff, hfields]
  refine ⟨n, hn, hid, ?_⟩
  cases hr with
  | skipped hskips =>
    cases hresult
    have hnothing : e.written field = [] := hwritten
    exact ⟨iff_of_true rfl (hsettled.1 hskips), fun _ => hnothing, absurd hnothing, by rintro _ _ _ ⟨⟩⟩
  | gaveUp hentered cause attempts errors =>
    unfold NodeFrame.giveUp at hresult ⊢
    split at hresult
    · cases hresult
      have hnothing : e.written field = [] := hwritten
      refine ⟨iff_of_false Bool.false_ne_true (mt hsettled.2 hentered), fun _ => hnothing,
        absurd hnothing, ?_⟩
      simp
    · cases hresult
  | came hentered htells =>
    cases hresult
    have hmem : e.written field ≠ [] ↔ field ∈ outcome.update.fields := by
      rw [hwritten, Update.valuesOf_ne_nil_iff]
    refine ⟨iff_of_false Bool.false_ne_true (mt hsettled.2 hentered), by rintro ⟨⟩, ?_, ?_⟩
    · intro hwrites
      obtain ⟨merge, hdeclares⟩ := declares_of_nodeOf hnode (htells.only field (hmem.1 hwrites))
      have hsame : merge = .append := by
        rw [← happend, Definition.merge_of_declares h.shape hn hdeclares]
      exact hsame ▸ hdeclares
    · intro hdeclares hkind hfresh _ _
      obtain ⟨fields, hall, hfield⟩ := mem_fieldsOn_of_nodeOf hnode hkind hdeclares rfl
      rw [hmem, htells.all fields (hfresh ▸ hall)]
      exact hfield

end Contributing

/-! ## The main result -/

/-- **A field that accumulates holds what the nodes contribute that are not skipped.** Take a graph
without cycles that has been assembled, whose nodes are nowhere said to be executed again, and a
field that it merges by `append`. Follow a run of a thread from the entry through all its
suspensions, with inputs that do not bring the field, until it completes. Then the field holds the
values that have been written to it, in the order in which the nodes have been entered, where a list
counts as its items and null as nothing. Each node that has been entered has been executed, or
skipped by its outputs, and has contributed accordingly. A node whose only output is the field, if
the name of this is a plain one, has been skipped where something had been written to it. -/
theorem unskipped_writers_contribute {c : Compiler} {store : Option Store} {depth : Nat}
    {stack : SourceStack} {d : Definition} {g : Graph} (hg : c.assemble store depth stack d = .ok g)
    (hacyclic : g.frame.table.cycles = []) (hdefault : d.defaults.skipIfExists = true)
    (hoptions : ∀ n ∈ d.nodes, n.options.skipIfExists ≠ some false) (config : RunConfig)
    {field : String} (happend : g.frame.shape.merge field = .append) {σ : Type} (host : Host σ)
    {thread : String} {start : Fields} {journal : List Station} {s : State}
    (hjourney : (g.withConfig config).Journey thread host
      (fun input => Dict.get? input field = none) start journal (.complete s))
    (hstart : Dict.get? start field = none) :
    Dict.get? s.values field = accumulated none (journal.flatMap (Station.written field)) ∧
    ∀ front e back, journal = front ++ e :: back →
      Dict.get? e.state.values field = accumulated none (front.flatMap (Station.written field)) ∧
      ∃ n ∈ d.nodes, n.id = e.node ∧ ∃ r, e.fate = .ran r ∧ d.Contributes n field e r ∧
        (Compiler.settledFields n = [field] → '.' ∉ field.toList → e.resume = none →
          front.flatMap (Station.written field) ≠ [] → r.skipped = true) := by
  obtain ⟨_, below, _, hlinked⟩ := Compiler.linked_of_assemble hg
  have hruns : ∀ id runner, (g.withConfig config).runner? id = some runner →
      ∀ s scope resume, (runner s scope resume).Obeys (fun _ => True) fun r =>
        ∃ made, GraphNode.lookup? g.nodes id = some made ∧
          made.frame.Comes s resume (made.Tells resume) r := by
    intro id runner hrunner s scope resume
    obtain ⟨made, hmade, rfl⟩ := Graph.exists_of_runner? hrunner
    exact (made.runner_comes s scope resume).mono (fun _ h => h) fun r hr => ⟨made, hmade, hr⟩
  have hmerge : (g.withConfig config).frame.shape.merge field = .append := happend
  have hgathers := (hjourney.travelled hruns).gathers hmerge (fun _ h => h) rfl
  rw [hstart] at hgathers
  refine ⟨hgathers.final, fun front e back heq => ?_⟩
  obtain ⟨hvalue, r, outcome, hfate, hresult, made, hmade, hr⟩ := hgathers.entered front e back heq
  obtain ⟨n, hn, hid, hcontributes⟩ :=
    hlinked.contributes hacyclic hdefault hoptions happend hfate hresult hmade hr
  refine ⟨hvalue, n, hn, hid, r, hfate, hcontributes, fun honly hplain hfresh hfull => ?_⟩
  rw [hcontributes.skips, honly]
  refine ⟨hfresh, List.cons_ne_nil _ _, List.forall_mem_singleton.2 ?_⟩
  unfold NodeFrame.isSet State.at?
  rw [Fields.at?_of_not_mem hplain, hvalue]
  cases hwritten : front.flatMap (Station.written field) with
  | nil => exact absurd hwritten hfull
  | cons first rest => rfl

/-- How a room is set up. -/
def roomSetup : Value :=
  .object [
    ("edges", .list [.object [("from", .text "unlock"), ("to", .text "END")]]),
    ("name", .text "setup"),
    ("nodes", .object [("unlock", .object [("set", .object [("unlocked", .bool true)]),
      ("type", .text "passthrough")])])]

/-- A meeting that is prepared, opened, closed and signed for, all of which is to go into its
minutes. -/
def meeting : Definition where
  version := none
  name := "meeting"
  description := none
  entry := none
  defaults := .standard
  tools := []
  nodes := [⟨"prepare", .subgraph ⟨none, some roomSetup, [], [("remarks", "minutes")], []⟩, appending⟩,
    ⟨"open", .passthrough ⟨[("minutes", .text "opened")], [], []⟩, appending⟩,
    ⟨"close", .passthrough ⟨[("minutes", .text "closed")], [], []⟩, appending⟩,
    ⟨"sign", .passthrough ⟨[("minutes", .text "signed"), ("names", .text "Ada")], [], []⟩,
      appending⟩]
  edges := [⟨"prepare", .one "open", none⟩, ⟨"open", .one "close", none⟩,
    ⟨"close", .one "sign", none⟩, ⟨"sign", .one "END", none⟩]
  loopLimits := []
  checkpoint := none
where
  /-- The options of all its nodes. -/
  appending : NodeOptions := { NodeOptions.unset with merge := some .append }

/-- The graph that it is compiled to. -/
def meetingGraph : Graph where
  frame :=
    { name := "meeting"
      table := ⟨"prepare", [("close", .direct (.node "sign")), ("open", .direct (.node "close")),
        ("prepare", .direct (.node "open")), ("sign", .direct .finish)], [], []⟩
      shape := ⟨[("minutes", ⟨.any, .append, ["prepare", "open", "close", "sign"], .output⟩),
        ("names", ⟨.any, .append, ["sign"], .output⟩)]⟩
      config := .standard
      store := none }
  nodes := [("prepare", .subgraph ⟨"prepare", none, ⟨.fail, none, none, ["minutes"], []⟩⟩
      ⟨[], [("remarks", "minutes")], []⟩
      { name := "setup"
        table := ⟨"unlock", [("unlock", .direct .finish)], [], []⟩
        shape := ⟨[("unlocked", ⟨.any, .overwrite, ["unlock"], .output⟩)]⟩
        config := .standard
        store := none }
      [("unlock", .leaf ⟨"unlock", none, ⟨.fail, none, none, ["unlocked"], []⟩⟩
        (.passthrough ⟨[("unlocked", .bool true)], [], []⟩))]),
    ("open", .leaf ⟨"open", none, ⟨.fail, none, none, ["minutes"], []⟩⟩
      (.passthrough ⟨[("minutes", .text "opened")], [], []⟩)),
    ("close", .leaf ⟨"close", none, ⟨.fail, none, none, ["minutes"], []⟩⟩
      (.passthrough ⟨[("minutes", .text "closed")], [], []⟩)),
    ("sign", .leaf ⟨"sign", none, ⟨.fail, none, none, ["minutes", "names"], []⟩⟩
      (.passthrough ⟨[("minutes", .text "signed"), ("names", .text "Ada")], [], []⟩))]

/-- What becomes of the meeting where nothing is known of it before. -/
def meetingRun : List Station × RunResult :=
  ((meetingGraph.journalRun [] "t").run downHost (.initial () .empty)).1

/-- The minutes hold what has been contributed by the nodes that have not been skipped. -/
theorem meeting_gathers_its_minutes :
    bareCompiler.assemble none 2 .empty meeting = .ok meetingGraph ∧ ∃ s,
      meetingRun.2 = .complete s ∧
      Dict.get? s.values "minutes" =
        accumulated none (meetingRun.1.flatMap (Station.written "minutes")) ∧
      Dict.get? s.values "minutes" = some (.list [.text "opened", .text "signed"]) := by
  have hg : bareCompiler.assemble none 2 .empty meeting = .ok meetingGraph := by
    with_unfolding_all rfl
  have hcomplete : ∃ s, meetingRun.2 = .complete s ∧
      Dict.get? s.values "minutes" = some (.list [.text "opened", .text "signed"]) := by
    refine ⟨_, by with_unfolding_all rfl, by with_unfolding_all rfl⟩
  obtain ⟨s, hs, hminutes⟩ := hcomplete
  have hbegun : meetingGraph.Journey "t" downHost (fun input => Dict.get? input "minutes" = none) []
      meetingRun.1 meetingRun.2 :=
    @Graph.Journey.begun _ _ _ _ _ (.initial () .empty) none [] rfl (by with_unfolding_all rfl)
      (by rintro _ ⟨⟩)
  rw [hs] at hbegun
  have happend : meetingGraph.frame.shape.merge "minutes" = .append := by with_unfolding_all rfl
  obtain ⟨hgathered, _⟩ := unskipped_writers_contribute hg rfl rfl (by decide) .standard happend
    downHost hbegun rfl
  exact ⟨hg, s, hs, hgathered, hminutes⟩

/-- All four nodes declare the minutes and are visited, and none fails. But closing is skipped, since
there are minutes already and it has no other output, and nothing comes back of what prepares the
meeting. -/
theorem meeting_loses_its_closing :
    bareCompiler.assemble none 2 .empty meeting = .ok meetingGraph ∧
      meetingGraph.frame.table.cycles = [] ∧ meeting.defaults.skipIfExists = true ∧
      (∀ n ∈ meeting.nodes, n.options.skipIfExists = none) ∧
      meetingGraph.frame.shape.merge "minutes" = .append ∧
      (∀ n ∈ meeting.nodes, meeting.Declares n "minutes" .append) ∧
      ∃ s, meetingRun.2 = .complete s ∧
        ((meetingGraph.run (.object []) "t").run downHost (.initial () .empty)).1 = .complete s ∧
        meetingRun.1.map Station.node = ["prepare", "open", "close", "sign"] ∧
        (∀ e ∈ meetingRun.1, e.errors = []) ∧
        meetingRun.1.map (Station.written "minutes") =
          [[], [.text "opened"], [], [.text "signed"]] ∧
        Dict.get? s.values "minutes" = some (.list [.text "opened", .text "signed"]) := by
  have hdeclares : ∀ n ∈ meeting.nodes, meeting.Declares n "minutes" .append := by
    refine List.forall_mem_cons.2 ⟨.mappedBack (.inl List.mem_cons_self), ?_⟩
    refine List.forall_mem_cons.2 ⟨.passed List.mem_cons_self, ?_⟩
    refine List.forall_mem_cons.2 ⟨.passed List.mem_cons_self, ?_⟩
    exact List.forall_mem_singleton.2 (.passed List.mem_cons_self)
  refine ⟨by with_unfolding_all rfl, rfl, rfl, by decide, by with_unfolding_all rfl, hdeclares,
    _, by with_unfolding_all rfl, by with_unfolding_all rfl, by with_unfolding_all rfl, ?_,
    by with_unfolding_all rfl, by with_unfolding_all rfl⟩
  have herrors : meetingRun.1.map Station.errors = [[], [], [], []] := by with_unfolding_all rfl
  intro e he
  have hmem : e.errors ∈ meetingRun.1.map Station.errors := List.mem_map_of_mem he
  rw [herrors] at hmem
  simpa using hmem

end WorkflowGraph
