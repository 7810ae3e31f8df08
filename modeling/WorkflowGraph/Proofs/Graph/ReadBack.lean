import WorkflowGraph.Proofs.Graph.Termination
import WorkflowGraph.Proofs.Node.Increment

/-!
# What a graph writes and reads back

A node declares the fields that it writes; the transitions, the frames that skip nodes and the
additions of later visits read them. They read what has been written if and only if a field has a
name without a dot (`declared_writes_read_back`). A loop that adds to a number therefore adds the
same number on every visit (`Graph.Tallies.track_obeys`).
-/

set_option autoImplicit false

namespace WorkflowGraph

open Activity

/-! ## Walks past a node that adds -/

/-- Settling an outcome merges its update into the fields, whatever comes then. -/
theorem GraphFrame.settle_values (g : GraphFrame) (thread node : String) (s : State)
    (outcome : NodeOutcome) : (g.settle thread node s outcome).Obeys (fun _ => True) fun r =>
      r.2.values = s.values.apply g.shape outcome.update := by
  unfold settle
  cases outcome with
  | suspend suspension =>
    refine obeys_bind (obeys_trivial _) ?_
    rintro (_ | _) _
    · rfl
    · rfl
  | proceed update =>
    dsimp only
    split
    · rfl
    · split
      · refine obeys_bind (obeys_trivial _) ?_
        rintro (_ | _) _
        · rfl
        · rfl
      · rfl
    · refine obeys_bind (obeys_trivial _) ?_
      rintro (_ | _) _
      · rfl
      · rfl

namespace PassthroughSpec

theorem summed_add (delta : Value) (m n : Nat) (a : Value) :
    summed delta (m + n) a = (summed delta m a).bind (summed delta n) := by
  induction m generalizing a with
  | zero => rw [Nat.zero_add, summed, Option.bind_some]
  | succ m ih =>
    rw [Nat.succ_add, summed, summed, Option.bind_assoc]
    exact Option.bind_congr fun b _ => ih b

end PassthroughSpec

/-- A step that does not fail leaves in a field what the execution of the node has left there. -/
theorem GraphFrame.enter_leaves {g : GraphFrame} {runner? : String → Option Runner} {scope : Scope}
    {node field : String} {s : State} {resume : Option Value} {Q : Value → Prop}
    (hrunner : ∀ runner, runner? node = some runner → ∀ t : State, t.values = s.values →
      (runner t scope resume).Obeys (fun _ => True) fun r => ∀ outcome, r.result = .ok outcome →
        ∃ b, (s.values.apply g.shape outcome.update).at? field = some b ∧ Q b)
    (budget : Option Nat) :
    (g.enter runner? scope budget s node resume).Obeys (fun _ => True) fun r =>
      (∀ e, r.onward ≠ .stop (.failed e)) →
        r.executed = true ∧ ∃ b, r.state.at? field = some b ∧ Q b := by
  unfold enter
  cases hnode : runner? node with
  | none => exact fun hnot => absurd rfl (hnot _)
  | some runner =>
    obtain ⟨counters, hcounters⟩ := g.visit_eq s node resume
    rcases hvisit : g.visit s node resume with ⟨visited, t⟩
    rw [hvisit] at hcounters
    dsimp only at hcounters
    have hvalues : t.values = s.values := by rw [hcounters]
    cases visited with
    | error e => exact fun hnot => absurd rfl (hnot e)
    | ok _ =>
      dsimp only
      unfold carryOut
      refine obeys_bind ((hrunner runner hnode t hvalues).withinOption budget) ?_
      rintro (_ | ⟨r, left⟩) hr
      · exact fun hnot => absurd rfl (hnot _)
      · dsimp only
        cases hresult : r.result with
        | error e => exact fun hnot => absurd rfl (hnot e)
        | ok outcome =>
          refine obeys_bind (g.settle_values _ _ _ outcome) fun settled hsettled _ => ?_
          obtain ⟨b, hb, hQ⟩ := hr _ rfl outcome hresult
          refine ⟨rfl, b, ?_, hQ⟩
          show settled.2.values.at? field = some b
          rw [hsettled]
          show (t.values.apply g.shape outcome.update).at? field = some b
          rw [hvalues]
          exact hb

namespace Graph

open PassthroughSpec

/-- Whether a node of a graph adds a number to a field whenever it is visited. -/
structure Adds (g : Graph) (id field : String) (delta : Number) : Prop where
  plain : '.' ∉ field.toList
  merge : g.frame.shape.merge field = .overwrite
  node : ∃ frame spec, GraphNode.lookup? g.nodes id = some (.leaf frame (.passthrough spec)) ∧
    frame.policy.skipFields = [] ∧ frame.policy.onError ≠ .skip ∧
    (field, delta) ∈ spec.increment ∧ ∀ p ∈ spec.increment, p.1 = field → p.2 = delta

/-- Whether, besides, no other node writes the field. -/
structure Tallies (g : Graph) (id field : String) (delta : Number) : Prop extends
    Adds g id field delta where
  others : ∀ other node, GraphNode.lookup? g.nodes other = some node → other ≠ id →
    ¬ node.Writes field

variable {g : Graph} {id field : String} {delta : Number} {s : State} {a : Value}

/-- What an execution of the node that adds leaves in the field. -/
theorem Adds.runner_obeys (h : g.Adds id field delta) {runner : Runner}
    (hrunner : g.runner? id = some runner) (ha : s.at? field = some a)
    (hnumber : a.isNumber = true) (scope : Scope) (resume : Option Value) :
    (runner s scope resume).Obeys (fun _ => True) fun r => ∀ outcome, r.result = .ok outcome →
      ∃ b, (s.values.apply g.frame.shape outcome.update).at? field = some b ∧
        sum? a delta.value = some b := by
  obtain ⟨made, hmade, rfl⟩ := exists_of_runner? hrunner
  obtain ⟨frame, spec, hspec, hskips, honError, hmem, honly⟩ := h.node
  rw [hmade] at hspec
  cases hspec
  have hproceeds : ¬ (frame.policy.skipFields ≠ [] ∨ frame.policy.onError = .skip) :=
    not_or.2 ⟨not_not_intro hskips, honError⟩
  apply NodeFrame.execute_yields fun hnothing => absurd hnothing hproceeds
  rintro v rfl outcome houtcome
  cases hupdate : spec.update frame.id v.state with
  | error e =>
    simp only [Attempt.of, hupdate, Except.map] at houtcome
    cases houtcome
  | ok u =>
    simp only [Attempt.of, hupdate, Except.map] at houtcome
    cases houtcome
    obtain ⟨b, hsum, hlast⟩ := exists_sum_of_update hupdate hmem honly ha hnumber
    exact ⟨b, Fields.at?_apply h.merge h.plain hlast, hsum⟩

/-- **A visit that does not fail adds the number.** -/
theorem Adds.enter_obeys (h : g.Adds id field delta) (scope : Scope) (budget : Option Nat)
    (ha : s.at? field = some a) (hnumber : a.isNumber = true) (resume : Option Value) :
    (g.frame.enter g.runner? scope budget s id resume).Obeys (fun _ => True) fun r =>
      (∀ e, r.onward ≠ .stop (.failed e)) →
        r.executed = true ∧ ∃ b, r.state.at? field = some b ∧ sum? a delta.value = some b := by
  apply GraphFrame.enter_leaves
  intro runner hrunner t ht
  have hvisited : t.at? field = some a := by
    unfold State.at?
    rw [ht]
    exact ha
  rw [← ht]
  exact h.runner_obeys hrunner hvisited hnumber scope resume

namespace Tallies

/-- A step that does not fail adds the number if it visits the node, and leaves the field alone
otherwise. -/
theorem enter_obeys (h : g.Tallies id field delta) (scope : Scope) (budget : Option Nat)
    (ha : s.at? field = some a) (hnumber : a.isNumber = true) (node : String)
    (resume : Option Value) :
    (g.frame.enter g.runner? scope budget s node resume).Obeys (fun _ => True) fun r =>
      (∀ e, r.onward ≠ .stop (.failed e)) →
        ∃ b, r.state.at? field = some b ∧
          summed delta.value ((GraphFrame.noted node r).count id) a = some b ∧
          b.isNumber = true := by
  by_cases hnode : node = id
  · subst hnode
    refine (h.toAdds.enter_obeys scope budget ha hnumber resume).mono (fun _ hc => hc) ?_
    intro r hr hnot
    obtain ⟨hexecuted, b, hb, hsum⟩ := hr hnot
    refine ⟨b, hb, ?_, isNumber_of_sum? hsum⟩
    rw [GraphFrame.noted, if_pos hexecuted, List.count_singleton_self, summed, hsum,
      Option.bind_some, summed]
  · have hleaves : (g.frame.enter g.runner? scope budget s node resume).Obeys (fun _ => True)
        fun r => (∀ e, r.onward ≠ .stop (.failed e)) →
          r.executed = true ∧ ∃ b, r.state.at? field = some b ∧ b = a := by
      apply GraphFrame.enter_leaves
      intro runner hrunner t ht
      obtain ⟨made, hmade, rfl⟩ := exists_of_runner? hrunner
      refine (made.runner_writes t scope resume).mono (fun _ hc => hc) ?_
      intro r hr outcome houtcome
      have hunwritten : field ∉ outcome.update.fields := fun hmem =>
        h.others node made hmade hnode (hr outcome houtcome field hmem)
      exact ⟨a, (Fields.at?_apply_of_not_mem h.plain hunwritten).trans ha, rfl⟩
    refine hleaves.mono (fun _ hc => hc) fun r hr hnot => ?_
    obtain ⟨hexecuted, b, hb, rfl⟩ := hr hnot
    refine ⟨b, hb, ?_, hnumber⟩
    rw [GraphFrame.noted, if_pos hexecuted, List.count_singleton,
      if_neg (by simpa using hnode), summed]

/-- **A walk that does not fail has added the number as often as it has visited the node.** By
induction on the steps. -/
theorem track_obeys (h : g.Tallies id field delta) (scope : Scope) (budget : Option Nat)
    (ha : s.at? field = some a) (hnumber : a.isNumber = true) (node : String)
    (resume : Option Value) (steps : Nat) :
    (g.frame.trackFrom g.runner? scope budget s node resume steps).Obeys (fun _ => True) fun r =>
      (∀ e, r.2.1 ≠ .failed e) →
        ∃ b, r.2.2.at? field = some b ∧ summed delta.value (r.1.count id) a = some b := by
  induction steps generalizing budget s a node resume with
  | zero => exact fun hnot => absurd rfl (hnot _)
  | succ steps ih =>
    refine obeys_bind (h.enter_obeys scope budget ha hnumber node resume) fun r hr => ?_
    cases honward : r.onward with
    | stop ending =>
      intro hnot
      obtain ⟨b, hb, hsum, _⟩ := hr fun e he => by
        rw [honward] at he
        cases he
        exact hnot e rfl
      exact ⟨b, hb, hsum⟩
    | go next =>
      obtain ⟨b, hb, hsum, hb'⟩ := hr fun e he => by
        rw [honward] at he
        cases he
      refine obeys_bind (ih r.budget hb hb' next none) fun rest hrest hnot => ?_
      obtain ⟨c, hc, hmore⟩ := hrest hnot
      refine ⟨c, hc, ?_⟩
      show summed delta.value ((GraphFrame.noted node r ++ rest.1).count id) a = some c
      rw [List.count_append, summed_add, hsum, Option.bind_some, hmore]

end Tallies

end Graph

/-! ## Nodes that are declared to add -/

/-- Whether a node of a definition is declared to add a number to a field, and neither to be left
out where the field is there nor to go on after a failure. -/
structure Definition.Adds (d : Definition) (n : NodeDecl) (field : String) (delta : Number) :
    Prop where
  mem : n ∈ d.nodes
  alone : ∀ m ∈ d.nodes, m.id = n.id → m = n
  merge : d.Declares n field .overwrite
  increment : ∃ spec, n.kind = .passthrough spec ∧ (field, delta) ∈ spec.increment ∧
    ∀ p ∈ spec.increment, p.1 = field → p.2 = delta
  unskipped : n.options.skipIfExists ≠ some true
  onError : n.options.onError ≠ .skip

namespace Compiler.Linked

variable {c : Compiler} {store : Option Store} {below : Nat} {stack : SourceStack}
  {d : Definition} {g : Graph} {n : NodeDecl} {field : String} {delta : Number}

/-- A node on a cycle that is declared to add does so in the graph that is linked. -/
theorem adds (hd : d.faults = []) (h : Linked c (c.innerAt store below) store stack d g)
    (hadds : d.Adds n field delta) (hcycle : g.frame.table.inCycle n.id = true)
    (hplain : '.' ∉ field.toList) : g.Adds n.id field delta := by
  refine ⟨hplain, Definition.merge_of_declares h.shape hadds.mem hadds.merge, ?_⟩
  obtain ⟨spec, hkind, hmem, honly⟩ := hadds.increment
  obtain ⟨made, hmade⟩ := h.exists_lookup? hd (List.mem_map_of_mem hadds.mem)
  obtain ⟨m, hm, hid, hnode⟩ := h.exists_of_lookup? hmade
  obtain rfl := hadds.alone m hm hid
  have hskip : isSkipped ⟨d, some g.frame.table, (c.bindTools d.tools).1, stack⟩ m = false := by
    unfold isSkipped
    rw [Option.any_some, hcycle]
    cases hoption : m.options.skipIfExists with
    | none => rfl
    | some explicit =>
      cases explicit with
      | false => rfl
      | true => exact absurd hoption hadds.unskipped
  rw [hskip, hkind] at hnode
  cases hnode
  exact ⟨_, spec, hmade, rfl, hadds.onError, hmem, honly⟩

/-- If no other node is declared to write the field, no other node writes it. -/
theorem tallies (hd : d.faults = []) (h : Linked c (c.innerAt store below) store stack d g)
    (hadds : d.Adds n field delta) (hcycle : g.frame.table.inCycle n.id = true)
    (hplain : '.' ∉ field.toList)
    (honly : ∀ m ∈ d.nodes, ∀ merge, d.Declares m field merge → m = n) :
    g.Tallies n.id field delta := by
  refine ⟨h.adds hd hadds hcycle hplain, fun other made hmade hother hwrites => hother ?_⟩
  obtain ⟨m, hm, rfl, hnode⟩ := h.exists_of_lookup? hmade
  obtain ⟨merge, hdeclares⟩ := declares_of_nodeOf hnode hwrites
  rw [honly m hm merge hdeclares]

end Compiler.Linked

/-- **What a node writes is what is read back, for names without dots.** In a compiled graph, the
last write to a field that a node declares, and that is overwritten, is read back from every state
if and only if the name of the field has no dot; what is written to a field with a dot is not read
under its name. So the transition of a router is decided by what it has just written if its field
has no dot, and not at all if it has one. A node whose outputs have all been written is skipped. A
node on a cycle that adds a number adds it on every visit that does not fail, and if no other node
writes the field, a walk adds it as often as it visits the node. -/
theorem declared_writes_read_back {c : Compiler} {store : Option Store} {depth : Nat}
    {stack : SourceStack} {d : Definition} {g : Graph}
    (h : c.assemble store depth stack d = .ok g) :
    (∀ n ∈ d.nodes, ∀ field, d.Declares n field .overwrite →
      ((∀ (s : State) (u : Update) (v : Value), u.last? field = some v →
        (s.apply g.frame.shape u).at? field = some v) ↔ '.' ∉ field.toList) ∧
      ('.' ∈ field.toList → ∀ (s : State) (v : Value),
        (s.apply g.frame.shape (.single field v)).at? field = s.at? field)) ∧
    (∀ id field routes fallback,
      g.frame.table.transition? id = some (.route field routes fallback) →
      ('.' ∉ field.toList → ∀ (s : State) (u : Update) (v : Value), u.last? field = some v →
        g.frame.table.next id (s.apply g.frame.shape u).values =
          g.frame.table.next id [(field, v)]) ∧
      ('.' ∈ field.toList → ∀ (s : State) (v : Value),
        g.frame.table.next id (s.apply g.frame.shape (.single field v)).values =
          g.frame.table.next id s.values)) ∧
    (∀ p ∈ g.nodes, p.2.frame.policy.skipFields ≠ [] → ∀ (s : State) (u : Update),
      (∀ field ∈ p.2.frame.policy.skipFields, '.' ∉ field.toList ∧
        ∃ v, u.last? field = some v ∧ v.isNull = false) →
      p.2.frame.isSettled (s.apply g.frame.shape u) = true) ∧
    ∀ n field delta, d.Adds n field delta → g.frame.table.inCycle n.id = true →
      '.' ∉ field.toList → ∀ (scope : Scope) (budget : Option Nat) (s : State) (a : Value),
      s.at? field = some a → a.isNumber = true →
      (∀ resume, (g.frame.enter g.runner? scope budget s n.id resume).Obeys (fun _ => True) fun r =>
        (∀ e, r.onward ≠ .stop (.failed e)) →
          r.executed = true ∧ ∃ b, r.state.at? field = some b ∧
            PassthroughSpec.sum? a delta.value = some b) ∧
      ((∀ m ∈ d.nodes, ∀ merge, d.Declares m field merge → m = n) →
        ∀ (node : String) (resume : Option Value) (steps : Nat),
        (g.frame.trackFrom g.runner? scope budget s node resume steps).Obeys (fun _ => True)
          fun r => (∀ e, r.2.1 ≠ .failed e) → ∃ b, r.2.2.at? field = some b ∧
            PassthroughSpec.summed delta.value (r.1.count n.id) a = some b) := by
  obtain ⟨hd, below, _, hlinked⟩ := Compiler.linked_of_assemble h
  have hmade := TransitionTable.madeOf hlinked.table
  refine ⟨fun n hn field hdeclares => ?_, fun id field routes fallback hroute => ?_,
    fun p _ hskips s u hwritten => NodeFrame.isSettled_apply hskips s g.frame.shape hwritten,
    fun n field delta hadds hcycle hplain scope budget s a ha hnumber => ?_⟩
  · exact ⟨Definition.reads_back_iff hlinked.shape hn hdeclares,
      fun hdot s v => Fields.at?_apply_single_of_mem hdot⟩
  · obtain ⟨n, hn, _, hdeclares⟩ := hmade.exists_router hroute
    refine ⟨fun hplain s u v hlast => TransitionTable.next_of_route hroute ?_,
      fun hdot s v => TransitionTable.next_of_route hroute (Fields.at?_apply_single_of_mem hdot)⟩
    have hmerge := Definition.merge_of_declares hlinked.shape hn hdeclares
    calc
      (s.apply g.frame.shape u).values.at? field = some v := Fields.at?_apply hmerge hplain hlast
      _ = Fields.at? [(field, v)] field := by
        rw [Fields.at?_of_not_mem hplain, Dict.get?_cons, if_pos rfl]
  · exact ⟨(hlinked.adds hd hadds hcycle hplain).enter_obeys scope budget ha hnumber,
      fun honly => (hlinked.tallies hd hadds hcycle hplain honly).track_obeys scope budget ha
        hnumber⟩

/-- A router that writes to a field where work goes, by the kind in the state. -/
def triage (output : String) : Definition where
  version := none
  name := "triage"
  description := none
  entry := none
  defaults := .standard
  tools := []
  nodes := [⟨"pick", .router ⟨none, some "kind", [], [("x", "work")], none, "classification"⟩,
      { NodeOptions.unset with output := some output }⟩,
    ⟨"work", .passthrough ⟨[("done", .bool true)], [], []⟩, .unset⟩]
  edges := [⟨"work", .one "END", none⟩]
  loopLimits := []
  checkpoint := none

/-- The graph that it is compiled to. -/
def triageGraph (output : String) : Graph where
  frame :=
    { name := "triage"
      table := ⟨"pick", [("pick", .route output [("x", .node "work")] none),
        ("work", .direct .finish)], [], []⟩
      shape := ⟨[("done", ⟨.any, .overwrite, ["work"], .output⟩),
        ("kind", ⟨.any, .overwrite, [], .input⟩),
        (output, ⟨.string, .overwrite, ["pick"], .implicit⟩)]⟩
      config := .standard
      store := none }
  nodes := [("pick", .leaf ⟨"pick", some output, ⟨.fail, none, none, [output], []⟩⟩
      (.router ⟨.path "kind", [], output, "classification", none⟩)),
    ("work", .leaf ⟨"work", none, ⟨.fail, none, none, ["done"], []⟩⟩
      (.passthrough ⟨[("done", .bool true)], [], []⟩))]

/-- Where the field of the router has a plain name, what it writes decides where it leads, in
whatever state. -/
theorem triage_routed_by_written_field :
    bareCompiler.assemble none 1 .empty (triage "topic") = .ok (triageGraph "topic") ∧
      ∀ s : State, (triageGraph "topic").frame.table.next "pick"
        (s.apply (triageGraph "topic").frame.shape (.single "topic" (.text "x"))).values =
          .ok (some "work") := by
  have hgraph : bareCompiler.assemble none 1 .empty (triage "topic") =
      .ok (triageGraph "topic") := by
    with_unfolding_all rfl
  have hroute : (triageGraph "topic").frame.table.transition? "pick" =
      some (.route "topic" [("x", .node "work")] none) := by
    with_unfolding_all rfl
  obtain ⟨_, hrouting, _⟩ := declared_writes_read_back hgraph
  refine ⟨hgraph, fun s => ?_⟩
  rw [(hrouting _ _ _ _ hroute).1 (by decide) s _ (.text "x") (by with_unfolding_all rfl)]
  with_unfolding_all rfl

/-- A field with a dot is declared and written, but it is not read back: the router finds nothing
where it has just written. -/
theorem triage_loses_field_with_dot :
    bareCompiler.assemble none 1 .empty (triage "topic.name") = .ok (triageGraph "topic.name") ∧
      (∃ n ∈ (triage "topic.name").nodes,
        (triage "topic.name").Declares n "topic.name" .overwrite) ∧
      (State.blank.apply (triageGraph "topic.name").frame.shape
        (.single "topic.name" (.text "x"))).at? "topic.name" ≠ some (.text "x") ∧
      ∃ s, (triageGraph "topic.name").run (.object [("kind", .text "x")]) "t" =
          pure (.failed (.unmatchedRoute "pick" "null") s) ∧
        Dict.get? s.values "topic.name" = some (.text "x") := by
  refine ⟨by with_unfolding_all rfl, ⟨_, List.mem_cons_self, .route⟩, ?_,
    _, by with_unfolding_all rfl, by with_unfolding_all rfl⟩
  have hlost : (State.blank.apply (triageGraph "topic.name").frame.shape
      (.single "topic.name" (.text "x"))).at? "topic.name" = none := by
    with_unfolding_all rfl
  rw [hlost]
  rintro ⟨⟩

end WorkflowGraph
