import WorkflowGraph.Proofs.Graph.Ledger

/-!
# Journals of walks

A journal notes every node that a walk enters: the state and the value that it is entered with, and
what becomes of it there. Without its journal, a walk that keeps one is the walk itself
(`GraphFrame.walk_eq_journal`), so that whatever is read off the journal is said of the walk.

Everything that a step can do is said once (`GraphFrame.Passes`), and a walk is a chain of such steps
(`GraphFrame.Walked`). What a journal tells is then proved by induction on the chain, without the
activities that have brought it about.
-/

set_option autoImplicit false

namespace WorkflowGraph

open Activity

/-- What becomes of a node that is entered: its limit is used up, the time of the run is over before
it has come to anything, or it has been executed. -/
inductive Fate where
  | refused
  | cut
  | ran (run : NodeRun)

/-- A node that is entered, with the value of the caller where it is entered again, the state that it
is given, and what becomes of it. -/
structure Station where
  node : String
  resume : Option Value
  state : State
  fate : Fate

/-- An entry of two journals one after the other is one of the first or one of the second. -/
theorem exists_of_append_eq {journal more front back : List Station} {e : Station}
    (h : journal ++ more = front ++ e :: back) :
    (∃ rest, journal = front ++ e :: rest ∧ back = rest ++ more) ∨
      ∃ rest, front = journal ++ rest ∧ more = rest ++ e :: back := by
  rcases List.append_eq_append_iff.1 h with ⟨rest, rfl, hmore⟩ | ⟨rest, rfl, hback⟩
  · exact .inr ⟨rest, rfl, hmore⟩
  · cases rest with
    | nil =>
      rw [List.append_nil]
      exact .inr ⟨[], (List.append_nil _).symm, hback.symm⟩
    | cons first rest =>
      cases hback
      exact .inl ⟨rest, rfl, rfl⟩

/-! ## How journals end -/

/-- The error that a walk ends with, if it does. -/
def WalkEnd.error? : WalkEnd → Option RunError
  | .failed e => some e
  | _ => none

/-- The error that ends the walk after a step, if one does. -/
def GraphFrame.Onward.error? : GraphFrame.Onward → Option RunError
  | .stop ending => ending.error?
  | .go _ => none

/-- The error that a run has failed with, if it has. -/
def RunResult.error? : RunResult → Option RunError
  | .failed e _ => some e
  | _ => none

namespace GraphFrame

/-! ## Walks that keep a journal -/

/-- Carry out a node, and note what has become of it. -/
def carryOutNoted (g : GraphFrame) (thread : String) (budget : Option Nat) (s : State)
    (node : String) (resume : Option Value) (p : Activity NodeRun) :
    Activity (List Station × WalkStep) := do
  match ← p.withinOption budget with
  | none =>
    let after := g.config.workflowTimeout.getD ⟨0⟩
    pure ([⟨node, resume, s, .cut⟩], ⟨true, .stop (.failed (.workflowTimeout after)), s, none⟩)
  | some (r, budget) =>
    match r.result with
    | .error e =>
      pure ([⟨node, resume, s, .ran r⟩], ⟨true, .stop (.failed e), afterRun s r, budget⟩)
    | .ok outcome => do
      let settled ← g.settle thread node (afterRun s r) outcome
      pure ([⟨node, resume, s, .ran r⟩], ⟨true, settled.1, settled.2, budget⟩)

/-- One step of a walk with what is noted of it. A node that does not exist is not entered. -/
def enterNoted (g : GraphFrame) (runner? : String → Option Runner) (scope : Scope)
    (budget : Option Nat) (s : State) (node : String) (resume : Option Value) :
    Activity (List Station × WalkStep) :=
  match runner? node with
  | none => pure ([], ⟨false, .stop (.failed (.state (.unknownNode node))), s, budget⟩)
  | some runner =>
    match g.visit s node resume with
    | (.error e, s) =>
      pure ([⟨node, resume, s, .refused⟩], ⟨false, .stop (.failed e), s, budget⟩)
    | (.ok _, s) => g.carryOutNoted scope.thread budget s node resume (runner s scope resume)

/-- Walk on from a node, and keep a journal. -/
def journalFrom (g : GraphFrame) (runner? : String → Option Runner) (scope : Scope)
    (budget : Option Nat) (s : State) (node : String) (resume : Option Value) :
    (steps : Nat) → Activity (List Station × WalkEnd × State)
  | 0 => pure ([], .failed (.maxStepsExceeded g.config.maxSteps), s)
  | steps + 1 => do
    let r ← g.enterNoted runner? scope budget s node resume
    match r.2.onward with
    | .stop ending => pure (r.1, ending, r.2.state)
    | .go next => do
      let rest ← g.journalFrom runner? scope r.2.budget r.2.state next none steps
      pure (r.1 ++ rest.1, rest.2)

/-- Walk from a node, and keep a journal. -/
def journal (g : GraphFrame) (runner? : String → Option Runner) (s : State)
    (start thread : String) (resume : Option Value) : Activity (List Station × RunResult) := do
  let budget := g.config.workflowTimeout.map Duration.wholeMillis
  let r ← g.journalFrom runner? ⟨thread, g.config⟩ budget s start resume g.config.maxSteps
  pure (r.1, g.conclude r.2)

section Forget

variable {g : GraphFrame} {runner? : String → Option Runner}

theorem carryOut_eq_carryOutNoted (thread : String) (budget : Option Nat) (s : State)
    (node : String) (resume : Option Value) (p : Activity NodeRun) :
    g.carryOut thread budget s node p =
      g.carryOutNoted thread budget s node resume p >>= fun r => pure r.2 := by
  unfold carryOut carryOutNoted
  rw [Activity.bind_bind]
  congr 1
  funext cut
  rcases cut with _ | ⟨r, left⟩
  · rfl
  · dsimp only
    cases r.result with
    | error e => rfl
    | ok outcome =>
      dsimp only
      rw [Activity.bind_bind]
      rfl

theorem enter_eq_enterNoted (scope : Scope) (budget : Option Nat) (s : State) (node : String)
    (resume : Option Value) :
    g.enter runner? scope budget s node resume =
      g.enterNoted runner? scope budget s node resume >>= fun r => pure r.2 := by
  unfold enter enterNoted
  cases runner? node with
  | none => rfl
  | some runner =>
    rcases g.visit s node resume with ⟨_ | _, t⟩
    · rfl
    · exact carryOut_eq_carryOutNoted _ _ _ _ _ _

theorem walkFrom_eq_journalFrom (scope : Scope) (budget : Option Nat) (s : State) (node : String)
    (resume : Option Value) (steps : Nat) :
    g.walkFrom runner? scope budget s node resume steps =
      g.journalFrom runner? scope budget s node resume steps >>= fun r => pure r.2 := by
  induction steps generalizing budget s node resume with
  | zero => rfl
  | succ steps ih =>
    rw [walkFrom_succ, enter_eq_enterNoted, journalFrom, Activity.bind_bind, Activity.bind_bind]
    congr 1
    funext r
    show g.goOn runner? scope steps r.2 = _
    unfold goOn
    cases r.2.onward with
    | stop ending => rfl
    | go next =>
      dsimp only
      rw [ih, Activity.bind_bind]
      rfl

/-- Without its journal, a walk that keeps one is the walk itself. -/
theorem walk_eq_journal (s : State) (start thread : String) (resume : Option Value) :
    g.walk runner? s start thread resume =
      g.journal runner? s start thread resume >>= fun r => pure r.2 := by
  rw [walk_eq, walkFrom_eq_journalFrom, journal, Activity.bind_bind, Activity.bind_bind]
  rfl

end Forget

/-! ## What a step can do -/

/-- What can follow an outcome of a node: its update is merged, and the walk is suspended or goes
where the table leads, unless the state cannot be saved. -/
inductive Settled (g : GraphFrame) (node : String) (s : State) :
    NodeOutcome → Onward → State → Prop where
  | suspended (suspension : Suspension) :
    Settled g node s (.suspend suspension) (.stop (.suspended (pendingAt node suspension)))
      { s.apply g.shape suspension.update with interrupt := some (pendingAt node suspension) }
  | unsavedSuspension (suspension : Suspension) (cause : StoreError) :
    Settled g node s (.suspend suspension) (.stop (.failed (.checkpoint cause)))
      { s.apply g.shape suspension.update with interrupt := some (pendingAt node suspension) }
  | stuck (update : Update) {e : RunError}
    (hnext : g.table.next node (s.apply g.shape update).values = .error e) :
    Settled g node s (.proceed update) (.stop (.failed e)) (s.apply g.shape update)
  | went (update : Update) {next : String}
    (hnext : g.table.next node (s.apply g.shape update).values = .ok (some next)) :
    Settled g node s (.proceed update) (.go next) (s.apply g.shape update)
  | arrived (update : Update)
    (hnext : g.table.next node (s.apply g.shape update).values = .ok none) :
    Settled g node s (.proceed update) (.stop .complete) (s.apply g.shape update)
  | unsaved (update : Update) (cause : StoreError) :
    Settled g node s (.proceed update) (.stop (.failed (.checkpoint cause)))
      (s.apply g.shape update)

/-- Everything that a step can do, and what is noted of it. What is known of the executions of nodes
is that they are those of `Q`, for the state and the value that the node is given. -/
inductive Passes (g : GraphFrame) (Q : String → State → Option Value → NodeRun → Prop) (s : State)
    (node : String) (resume : Option Value) : List Station → Onward → State → Prop where
  | unknown : Passes g Q s node resume [] (.stop (.failed (.state (.unknownNode node)))) s
  | refused {limit : Nat} {t : State}
    (hvisit : g.visit s node resume = (.error (.loopLimitExceeded node limit), t)) :
    Passes g Q s node resume [⟨node, resume, t, .refused⟩]
      (.stop (.failed (.loopLimitExceeded node limit))) t
  | cut {t : State} (after : Duration) (hvisit : g.visit s node resume = (.ok (), t)) :
    Passes g Q s node resume [⟨node, resume, t, .cut⟩]
      (.stop (.failed (.workflowTimeout after))) t
  | failed {t : State} {r : NodeRun} {e : RunError}
    (hvisit : g.visit s node resume = (.ok (), t)) (hr : Q node t resume r)
    (he : r.result = .error e) :
    Passes g Q s node resume [⟨node, resume, t, .ran r⟩] (.stop (.failed e)) (afterRun t r)
  | settled {t u : State} {r : NodeRun} {outcome : NodeOutcome} {onward : Onward}
    (hvisit : g.visit s node resume = (.ok (), t)) (hr : Q node t resume r)
    (houtcome : r.result = .ok outcome) (h : g.Settled node (afterRun t r) outcome onward u) :
    Passes g Q s node resume [⟨node, resume, t, .ran r⟩] onward u

/-- A walk as a chain of steps, with its journal and its end. Nodes after the first one are not
entered again. -/
inductive Walked (g : GraphFrame) (Q : String → State → Option Value → NodeRun → Prop) :
    State → String → Option Value → List Station → WalkEnd → State → Prop where
  | spent (s : State) (node : String) (resume : Option Value) :
    Walked g Q s node resume [] (.failed (.maxStepsExceeded g.config.maxSteps)) s
  | stop {s t : State} {node : String} {resume : Option Value} {noted : List Station}
    {ending : WalkEnd} (h : g.Passes Q s node resume noted (.stop ending) t) :
    Walked g Q s node resume noted ending t
  | go {s t u : State} {node next : String} {resume : Option Value} {noted rest : List Station}
    {ending : WalkEnd} (h : g.Passes Q s node resume noted (.go next) t)
    (hrest : Walked g Q t next none rest ending u) :
    Walked g Q s node resume (noted ++ rest) ending u

/-! ## What a walk does -/

section Yields

variable {g : GraphFrame} {runner? : String → Option Runner} {R : NodeRun → Prop}
  {Q : String → State → Option Value → NodeRun → Prop}

theorem save_yields (g : GraphFrame) (thread : String) (s : State) (next : Option String) :
    (g.save thread s next).Yields R fun r => ∀ e, r = .error e → ∃ cause, e = .checkpoint cause := by
  unfold save
  split
  · rintro e ⟨⟩
  · rintro (cause | _)
    · rintro e ⟨⟩
      exact ⟨cause, rfl⟩
    · dsimp only [Activity.bind]
      split
      · rintro e ⟨⟩
      · rintro (cause | gone)
        · rintro e ⟨⟩
          exact ⟨cause, rfl⟩
        · rintro e ⟨⟩

theorem settle_yields (g : GraphFrame) (thread node : String) (s : State)
    (outcome : NodeOutcome) :
    (g.settle thread node s outcome).Yields R fun r => g.Settled node s outcome r.1 r.2 := by
  unfold settle
  cases outcome with
  | suspend suspension =>
    refine yields_bind (save_yields g _ _ _) ?_
    rintro (e | _) he
    · obtain ⟨cause, rfl⟩ := he e rfl
      exact .unsavedSuspension suspension cause
    · exact .suspended suspension
  | proceed update =>
    dsimp only
    split
    · next hnext => exact .stuck update hnext
    · next hnext =>
      split
      · refine yields_bind (save_yields g _ _ _) ?_
        rintro (e | _) he
        · obtain ⟨cause, rfl⟩ := he e rfl
          exact .unsaved update cause
        · exact .went update hnext
      · exact .went update hnext
    · next hnext =>
      refine yields_bind (save_yields g _ _ _) ?_
      rintro (e | _) he
      · obtain ⟨cause, rfl⟩ := he e rfl
        exact .unsaved update cause
      · exact .arrived update hnext

theorem exists_of_visit_error {g : GraphFrame} {s t : State} {node : String}
    {resume : Option Value} {e : RunError} (h : g.visit s node resume = (.error e, t)) :
    ∃ limit, e = .loopLimitExceeded node limit := by
  unfold visit at h
  split at h
  · next limit _ =>
    dsimp only at h
    split at h
    · cases h
      exact ⟨limit, rfl⟩
    · cases h
  · cases h

variable (hruns : ∀ id runner, runner? id = some runner → ∀ s scope resume,
  (runner s scope resume).Yields R (Q id s resume))

include hruns

/-- A step does nothing else than what a step can do. -/
theorem enterNoted_yields (scope : Scope) (budget : Option Nat) (s : State) (node : String)
    (resume : Option Value) :
    (g.enterNoted runner? scope budget s node resume).Yields R fun r =>
      g.Passes Q s node resume r.1 r.2.onward r.2.state := by
  unfold enterNoted
  cases hrunner : runner? node with
  | none => exact .unknown
  | some runner =>
    rcases hvisit : g.visit s node resume with ⟨_ | _, t⟩
    · obtain ⟨limit, rfl⟩ := exists_of_visit_error hvisit
      exact .refused hvisit
    · dsimp only
      unfold carryOutNoted
      refine yields_bind ((hruns node runner hrunner t scope resume).withinOption budget) ?_
      rintro (_ | ⟨r, left⟩) hr
      · exact .cut _ hvisit
      · have hrun : Q node t resume r := hr _ rfl
        dsimp only
        split
        · next e he => exact .failed hvisit hrun he
        · next outcome houtcome =>
          exact yields_bind (settle_yields g _ _ _ _) fun settled hsettled =>
            .settled hvisit hrun houtcome hsettled

/-- A walk is a chain of such steps. By induction on the number of steps. -/
theorem journalFrom_yields (scope : Scope) (budget : Option Nat) (s : State) (node : String)
    (resume : Option Value) (steps : Nat) :
    (g.journalFrom runner? scope budget s node resume steps).Yields R fun r =>
      g.Walked Q s node resume r.1 r.2.1 r.2.2 := by
  induction steps generalizing budget s node resume with
  | zero => exact .spent s node resume
  | succ steps ih =>
    refine yields_bind (enterNoted_yields hruns scope budget s node resume) fun r hr => ?_
    cases honward : r.2.onward with
    | stop ending =>
      rw [honward] at hr
      exact .stop hr
    | go next =>
      rw [honward] at hr
      exact yields_bind (ih r.2.budget r.2.state next none) fun rest hrest => .go hr hrest

theorem journal_yields (s : State) (start thread : String) (resume : Option Value) :
    (g.journal runner? s start thread resume).Yields R fun r =>
      ∃ ending t, g.Walked Q s start resume r.1 ending t ∧ r.2 = g.conclude (ending, t) :=
  yields_bind (journalFrom_yields hruns _ _ _ _ _ _) fun r hr => ⟨r.2.1, r.2.2, hr, rfl⟩

end Yields

end GraphFrame

end WorkflowGraph
